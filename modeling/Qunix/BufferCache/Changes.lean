/-
What one step of the threads does.

`Change` lists the effects a step can have on the cache, the device, the guards
and the references, together with what the code has checked before. Under the
invariant every step is one of them (`Inv.change`), so what holds along runs is
proved with one case for each effect.
-/

import Qunix.BufferCache.Transitions

namespace Qunix.BufferCache

open Function Qunix.Lib

variable {N : Nat}

/-- The invariant of a whole state; before `init` nothing was handed out. -/
structure Inv (s : Sys N) : Prop where
  ready : ∀ b, s.cache = some b →
    Coherent b s.device s.lastWrite (Task.hold ∘ s.tasks) s.refs
  fresh : s.cache = none →
    (∀ t, (s.tasks t).hold = none) ∧ s.refs = [] ∧ ∀ k, s.lastWrite k = none

/-- The effect of a step that does not touch the invariant's data; no write has
returned `Ok`. -/
structure Quiet (s s' : Sys N) : Prop where
  cache : s'.cache = s.cache
  device : s'.device = s.device
  lastWrite : s'.lastWrite = s.lastWrite
  refs : s'.refs = s.refs
  hold : Task.hold ∘ s'.tasks = Task.hold ∘ s.tasks
  unwritten : ∀ t c, s.tasks t = .store c → s'.tasks t ≠ .done (.ok ())

inductive Change (s : Sys N) : Act N → Sys N → Prop where
  | quiet {a : Act N} {s' : Sys N} : Quiet s s' → Change s a s'
  | init {frames : Fin N → Bytes} : s.cache = none →
      Change s (.init frames) (s.setCache (Bcache.new frames))
  /-- A call was refused for want of a slot. -/
  | refused {t : Nat} {task : Task N} {b b' : Bcache N} : s.cache = some b → b.Freed b' →
      (s.tasks t).hold = none → task.hold = none → task ≠ .done (.ok ()) →
      Change s (.advance t) ((s.setCache b').setTask t task)
  | hit {t : Nat} {c : ReadCall} {b b' : Bcache N} {slot : Fin N} : s.cache = some b →
      s.tasks t = .claim c → b.table.lookup c.key = some slot →
      ¬ ((b.table.slots slot).state = .inFlight ∧ b.filling slot = true) →
      b.Becomes slot { b.table.slots slot with pins := (b.table.slots slot).pins + 1 }
        (b.frames slot) (b.filling slot) b' →
      Change s (.advance t)
        ({ s.setCache b' with refs := ⟨slot, c.key⟩ :: s.refs }.finish t (.ok ()))
  | claimed {t : Nat} {c : ReadCall} {b b₁ b' : Bcache N} {token : IoToken N} :
      s.cache = some b → s.tasks t = .claim c → b.Freed b₁ → b₁.table.lookup c.key = none →
      (b₁.table.slots token.slot).state = .free →
      b₁.Becomes token.slot (Bcache.claimed c.key) (b₁.frames token.slot) true b' →
      Change s (.advance t) ((s.setCache b').setTask t (.fill c token))
  /-- A read came back. -/
  | arrived {t : Nat} {c : ReadCall} {b : Bcache N} {token : IoToken N}
      {outcome : Except BlockError Unit} {junk : Bytes} : s.cache = some b →
      s.tasks t = .fill c token →
      Change s (.complete t outcome junk) ((s.setCache { b with
        frames := update b.frames token.slot
          (if outcome.toBool then s.device c.key.lba else junk) }).setTask t
        (.filled c token outcome))
  | finished {t : Nat} {c : ReadCall} {b b' : Bcache N} {token : IoToken N} : s.cache = some b →
      s.tasks t = .filled c token (.ok ()) →
      b.Becomes token.slot
        { b.table.slots token.slot with
          state := .clean
          pins := (b.table.slots token.slot).pins + 1 } (b.frames token.slot) false b' →
      Change s (.advance t)
        ({ s.setCache b' with refs := ⟨token.slot, c.key⟩ :: s.refs }.finish t (.ok ()))
  | failed {t : Nat} {c : ReadCall} {b b' : Bcache N} {token : IoToken N} {e : BlockError} :
      s.cache = some b → s.tasks t = .filled c token (.error e) →
      b.Becomes token.slot .empty (b.frames token.slot) false b' →
      Change s (.advance t) ((s.setCache b').finish t (.error (.device e)))
  | droppedFill {t : Nat} {c : ReadCall} {b b' : Bcache N} {token : IoToken N} {junk : Bytes} :
      s.cache = some b → s.tasks t = .fill c token →
      b.Becomes token.slot .empty junk false b' →
      Change s (.drop t junk) ((s.setCache b').setTask t .idle)
  /-- New bytes for a block that has a slot. -/
  | stored {t : Nat} {c : WriteCall} {b b' : Bcache N} {slot : Fin N} : s.cache = some b →
      s.tasks t = .store c → b.table.lookup c.key = some slot →
      (b.table.slots slot).state ≠ .inFlight → (b.table.slots slot).pins = 0 →
      b.Becomes slot { b.table.slots slot with state := .dirty } c.data (b.filling slot) b' →
      Change s (.advance t)
        ({ s.setCache b' with lastWrite := update s.lastWrite c.key (some c.data) }.finish t
          (.ok ()))
  /-- New bytes for a block that had none. -/
  | storedNew {t : Nat} {c : WriteCall} {b b₁ b' : Bcache N} {slot : Fin N} : s.cache = some b →
      s.tasks t = .store c → b.Freed b₁ → b₁.table.lookup c.key = none →
      (b₁.table.slots slot).state = .free →
      b₁.Becomes slot { Bcache.claimed c.key with state := .dirty } c.data (b₁.filling slot) b' →
      Change s (.advance t)
        ({ s.setCache b' with lastWrite := update s.lastWrite c.key (some c.data) }.finish t
          (.ok ()))
  | begun {t : Nat} {f : Flusher N} {b b' : Bcache N} {slot : Fin N} : s.cache = some b →
      s.tasks t = .begin f slot → (b.table.slots slot).state = .dirty →
      b.Becomes slot { b.table.slots slot with state := .inFlight } (b.frames slot)
        (b.filling slot) b' →
      Change s (.advance t)
        ((s.setCache b').setTask t (.submit f ⟨⟨slot, .dirty⟩, (b.table.slots slot).key⟩))
  | submitted {t : Nat} {f : Flusher N} {b : Bcache N} {w : Writeback N} : s.cache = some b →
      s.tasks t = .submit f w →
      Change s (.advance t) (s.setTask t (.writing f w (b.frames w.token.slot)))
  /-- A write came back. -/
  | answered {t : Nat} {f : Flusher N} {b : Bcache N} {w : Writeback N} {bytes : Bytes}
      {outcome : Except BlockError Unit} {junk : Bytes} : s.cache = some b →
      s.tasks t = .writing f w bytes →
      Change s (.complete t outcome junk) (Sys.setTask { s with
        device := update s.device w.key.lba (if outcome.toBool then bytes else junk) } t
        (.written f w outcome))
  | cleaned {t : Nat} {f : Flusher N} {b b' : Bcache N} {w : Writeback N} {task : Task N} :
      s.cache = some b → s.tasks t = .written f w (.ok ()) →
      b.Becomes w.token.slot { b.table.slots w.token.slot with state := .clean }
        (b.frames w.token.slot) (b.filling w.token.slot) b' → task.hold = none →
      Change s (.advance t) ((s.setCache b').setTask t task)
  | kept {t : Nat} {f : Flusher N} {b b' : Bcache N} {w : Writeback N} {e : BlockError}
      {task : Task N} : s.cache = some b → s.tasks t = .written f w (.error e) →
      b.Becomes w.token.slot { b.table.slots w.token.slot with state := .dirty }
        (b.frames w.token.slot) (b.filling w.token.slot) b' → task.hold = none →
      Change s (.advance t) ((s.setCache b').setTask t task)
  | droppedWriteback {t : Nat} {f : Flusher N} {b b' : Bcache N} {w : Writeback N}
      {bytes junk : Bytes} : s.cache = some b → s.tasks t = .writing f w bytes →
      b.Becomes w.token.slot { b.table.slots w.token.slot with state := .dirty }
        (b.frames w.token.slot) (b.filling w.token.slot) b' →
      Change s (.drop t junk)
        ({ s.setCache b' with device := update s.device w.key.lba junk }.setTask t .idle)
  | unpinned {r : BlockRef N} {b b' : Bcache N} : s.cache = some b → r ∈ s.refs →
      b.Becomes r.slot
        { b.table.slots r.slot with pins := (b.table.slots r.slot).pins - 1 } (b.frames r.slot)
        (b.filling r.slot) b' →
      Change s (.dropRef r) { s.setCache b' with refs := s.refs.erase r }

/-! ### Steps without an effect -/

@[simp] theorem hold_resume (k : Caller) : (k.resume : Task N).hold = none := by
  cases k <;> rfl

@[simp] theorem hold_turn (y : SyncCall N) : y.turn.hold = none := by
  unfold SyncCall.turn
  split
  · rfl
  · split
    · rfl
    · simp only
      split <;> rfl

@[simp] theorem hold_startRound (y : SyncCall N) (m : Fin N → Bool) :
    (y.startRound m).hold = none := by
  unfold SyncCall.startRound
  simp only
  split
  · split <;> rfl
  · exact hold_turn _

theorem hold_of_isIdle {s : Sys N} {t : Nat} (hi : s.isIdle t = true) :
    (s.tasks t).hold = none := by
  unfold Sys.isIdle at hi
  cases ht : s.tasks t with
  | idle | done => rfl
  | _ => simp [ht] at hi

section Quiet

variable {s : Sys N} {t : Nat} {task : Task N} {a : Act N}

theorem Quiet.of_tasks_eq {s' : Sys N} (hc : s'.cache = s.cache) (hde : s'.device = s.device)
    (hl : s'.lastWrite = s.lastWrite) (hr : s'.refs = s.refs) (ht : s'.tasks = s.tasks) :
    Quiet s s' where
  cache := hc
  device := hde
  lastWrite := hl
  refs := hr
  hold := by rw [ht]
  unwritten := by
    intro t c hta hd
    rw [ht, hta] at hd
    cases hd

theorem Change.stop (why : Panic) : Change s a (s.stop why) :=
  .quiet (.of_tasks_eq rfl rfl rfl rfl rfl)

theorem Change.move (hold : (s.tasks t).hold = none) (ht : task.hold = none)
    (hno : ∀ c, s.tasks t = .store c → task ≠ .done (.ok ())) : Change s a (s.setTask t task) := by
  refine .quiet ⟨rfl, rfl, rfl, rfl, ?_, fun u c hu hd => ?_⟩
  · change Task.hold ∘ update s.tasks t task = _
    rw [comp_update, update_eq_self_iff]
    exact ht.trans hold.symm
  · change update s.tasks t task u = _ at hd
    by_cases hut : u = t
    · rw [hut, update_self] at hd
      exact hno c (hut ▸ hu) hd
    · rw [update_of_ne hut, hu] at hd
      cases hd

/-- A call that is not a `store`, or has not returned `Ok`. -/
theorem Change.move_of_ne (hold : (s.tasks t).hold = none) (ht : task.hold = none)
    (hne : task ≠ .done (.ok ())) : Change s a (s.setTask t task) :=
  .move hold ht fun _ _ => hne

theorem setCache_self {b : Bcache N} (hc : s.cache = some b) : s.setCache b = s := by
  rw [Sys.setCache, ← hc]

end Quiet

/-! ### Sections -/

/-- The call of `sync` a thread is in, and the slot it stands at. -/
def Task.call : Task N → Option (SyncCall N × Option (Fin N))
  | .begin (.sync y) slot => some (y, some slot)
  | .submit (.sync y) w => some (y, some w.token.slot)
  | .writing (.sync y) w _ => some (y, some w.token.slot)
  | .written (.sync y) w _ => some (y, some w.token.slot)
  | .round y => some (y, none)
  | .syncWait y => some (y, none)
  | _ => none

namespace Sys

variable {s s' : Sys N} {t : Nat}

/-- A section without an effect. The thread goes on to another task, and is not in a
`sync` unless it was, or has just computed its mask. -/
def Moves (s : Sys N) (t : Nat) (s' : Sys N) : Prop :=
  ∃ task : Task N, s' = s.setTask t task ∧ (s.tasks t).hold = none ∧ task.hold = none ∧
    (∀ c, s.tasks t ≠ .store c) ∧ ((s.tasks t).call = none → s.tasks t ≠ .owed → task.call = none)

/-- What the next section of a thread makes of the state. -/
inductive Section (s : Sys N) (t : Nat) : Sys N → Prop where
  | moves {s' : Sys N} : s.Moves t s' → Section s t s'
  | claim {c : ReadCall} : s.tasks t = .claim c → Section s t (s.claim t c)
  | finishFill {c : ReadCall} {token : IoToken N} {outcome : Except BlockError Unit} :
      s.tasks t = .filled c token outcome → Section s t (s.finishFill t c token outcome)
  | store {c : WriteCall} : s.tasks t = .store c → Section s t (s.store t c)
  | beginWriteback {f : Flusher N} {slot : Fin N} : s.tasks t = .begin f slot →
      Section s t (s.beginWriteback t f slot)
  | submit {f : Flusher N} {w : Writeback N} : s.tasks t = .submit f w →
      Section s t (s.submit t f w)
  | finishWriteback {f : Flusher N} {w : Writeback N} {outcome : Except BlockError Unit} :
      s.tasks t = .written f w outcome → Section s t (s.finishWriteback t f w outcome)

@[simp] theorem call_resume (k : Caller) : (k.resume : Task N).call = none := by
  cases k <;> rfl

theorem Moves.mk {task task' : Task N} (ht : s.tasks t = task) (hold : task.hold = none)
    (hold' : task'.hold = none) (hno : ∀ c, task ≠ .store c)
    (hc : task.call = none → task ≠ .owed → task'.call = none) : s.Moves t (s.setTask t task') := by
  subst ht
  exact ⟨task', rfl, hold, hold', hno, hc⟩

theorem Moves.notBegun {f : Flusher N} {slot : Fin N} (ht : s.tasks t = .begin f slot) :
    s.Moves t (s.notBegun t slot f) := by
  cases f with
  | room k => exact .mk ht rfl rfl nofun fun _ _ => rfl
  | sync y => exact .mk ht rfl (hold_turn y) nofun nofun

theorem section_of_advance (hs : s.advance t = some s') : s.Section t s' := by
  unfold advance at hs
  generalize ht : s.tasks t = task at hs
  cases task with
  | idle | done | fill | writing => cases hs
  | claim c => exact Option.some.inj hs ▸ .claim ht
  | filled c token outcome => exact Option.some.inj hs ▸ .finishFill ht
  | store c => exact Option.some.inj hs ▸ .store ht
  | begin f slot => exact Option.some.inj hs ▸ .beginWriteback ht
  | submit f w => exact Option.some.inj hs ▸ .submit ht
  | written f w outcome => exact Option.some.inj hs ▸ .finishWriteback ht
  | readWait c | writeWait c =>
    exact Option.some.inj hs ▸ .moves (.mk ht rfl rfl nofun fun _ _ => rfl)
  | roomWait k =>
    exact Option.some.inj hs ▸ .moves (.mk ht rfl (hold_resume k) nofun fun _ _ => call_resume k)
  | syncWait y => exact Option.some.inj hs ▸ .moves (.mk ht rfl rfl nofun nofun)
  | blocked c why =>
    cases hs
    cases why <;> exact .moves (.mk ht rfl rfl nofun fun _ _ => rfl)
  | filling c =>
    cases hs
    unfold checkFill
    split <;> exact .moves (.mk ht rfl rfl nofun fun _ _ => rfl)
  | overdue c why =>
    cases hs
    unfold checkBlocked
    repeat' split
    all_goals exact .moves (.mk ht rfl rfl nofun fun _ _ => rfl)
  | room k =>
    cases hs
    unfold makeRoom
    repeat' split
    all_goals exact .moves (.mk ht rfl rfl nofun fun _ _ => rfl)
  | notDirty k slot =>
    have hr : s.Section t (s.setTask t k.resume) :=
      .moves (.mk ht rfl (hold_resume k) nofun fun _ _ => call_resume k)
    cases hs
    unfold checkSlot
    repeat' split
    all_goals first | exact hr | exact .moves (.mk ht rfl rfl nofun fun _ _ => rfl)
  | owed =>
    cases hs
    unfold sync
    split <;> exact .moves (.mk ht rfl rfl nofun fun _ hne => absurd rfl hne)
  | round y =>
    cases hs
    unfold syncRound
    split
    · exact .moves (.mk ht rfl rfl nofun nofun)
    · exact .moves (.mk ht rfl (hold_startRound ..) nofun nofun)

end Sys

theorem Change.of_moves {s s' : Sys N} {t : Nat} {a : Act N} (h : s.Moves t s') :
    Change s a s' := by
  obtain ⟨task, rfl, hold, hold', hno, -⟩ := h
  exact .move hold hold' fun c hc => absurd hc (hno c)

/-! ### Every step is one of them -/

namespace Inv

variable {s s' : Sys N} {t : Nat} {b : Bcache N}

theorem quiet_of_cache (h : Inv s) (hc : s.cache = some b) (i : Fin N) :
    (b.table.slots i).dirtiedDuringIo = false := ((h.ready b hc).sound i).quiet

theorem holds (h : Inv s) {g : Hold N} (hg : (s.tasks t).hold = some g) :
    ∃ b, s.cache = some b := by
  cases hc : s.cache with
  | some b => exact ⟨b, rfl⟩
  | none => simp [(h.fresh hc).1 t] at hg

variable {c : ReadCall} {token : IoToken N} {outcome : Except BlockError Unit} {f : Flusher N}
  {w : Writeback N} {junk : Bytes}

theorem line_of_fill (h : Inv s) (hc : s.cache = some b) (ht : s.tasks t = .fill c token) :
    b.line token.slot = .pending c.key :=
  ((h.ready b hc).guards.slot_of_hold (congrArg Task.hold ht)).2

theorem line_of_filled (h : Inv s) (hc : s.cache = some b)
    (ht : s.tasks t = .filled c token outcome) : b.line token.slot = .pending c.key := by
  cases outcome with
  | ok u => exact ((h.ready b hc).guards.slot_of_hold (congrArg Task.hold ht)).2.1
  | error e => exact ((h.ready b hc).guards.slot_of_hold (congrArg Task.hold ht)).2

theorem change_claim (ht : s.tasks t = .claim c) :
    Change s (.advance t) (s.claim t c) := by
  have hold : (s.tasks t).hold = none := congrArg Task.hold ht
  unfold Sys.claim
  split
  · exact .move_of_ne hold rfl nofun
  · rename_i b hc
    cases hcl : b.claim c.key with
    | error why => exact .stop why
    | ok p =>
      obtain ⟨r, b'⟩ := p
      rcases Bcache.claim_eq_ok hcl with ⟨⟨e, rfl⟩, hf⟩ | ⟨rfl, rfl⟩ |
        ⟨slot, rfl, hfo, hr, hb⟩ | ⟨token, b₁, rfl, hf, ha, hfr, hb⟩
      · cases e with
        | exhausted =>
          simp only
          split <;> exact .refused hc hf hold rfl nofun
        | _ => exact .refused hc hf hold rfl nofun
      · simp only [setCache_self hc]
        exact .move_of_ne hold rfl nofun
      · exact .hit hc ht hfo hr hb
      · simp only [lbaOf, c.valid.2]
        exact .claimed hc ht hf ha hfr hb

theorem change_finishFill (h : Inv s) (ht : s.tasks t = .filled c token outcome) :
    Change s (.advance t) (s.finishFill t c token outcome) := by
  unfold Sys.finishFill
  split
  · exact .stop _
  · rename_i b hc
    have hq := h.quiet_of_cache hc token.slot
    cases outcome with
    | ok u =>
      cases hfin : b.finishFill token (Except.toBool (.ok u : Except BlockError Unit)) with
      | error why => exact .stop why
      | ok p =>
        obtain ⟨r, b'⟩ := p
        obtain ⟨rfl, hb⟩ := Bcache.finishFill_ok hq hfin
        exact .finished hc ht hb
    | error e =>
      cases hfin : b.finishFill token (Except.toBool (.error e : Except BlockError Unit)) with
      | error why => exact .stop why
      | ok p =>
        obtain ⟨r, b'⟩ := p
        obtain ⟨rfl, hb⟩ := Bcache.finishFill_error hq hfin
        exact .failed hc ht hb

theorem change_store {c : WriteCall} (ht : s.tasks t = .store c) :
    Change s (.advance t) (s.store t c) := by
  have hold : (s.tasks t).hold = none := congrArg Task.hold ht
  unfold Sys.store
  split
  · exact .move_of_ne hold rfl nofun
  · rename_i b hc
    cases hs : b.store c.key c.data with
    | error why => exact .stop why
    | ok p =>
      obtain ⟨r, b'⟩ := p
      rcases Bcache.store_eq_ok hs with ⟨⟨e, rfl⟩, hf⟩ | ⟨⟨why, rfl⟩, rfl⟩ |
        ⟨rfl, slot, hfo, hio, hp, hb⟩ | ⟨rfl, slot, b₁, hf, ha, hfr, hb⟩
      · cases e with
        | exhausted =>
          simp only
          split <;> exact .refused hc hf hold rfl nofun
        | _ => exact .refused hc hf hold rfl nofun
      · simp only [setCache_self hc]
        exact .move_of_ne hold rfl nofun
      · exact .stored hc ht hfo hio hp hb
      · exact .storedNew hc ht hf ha hfr hb

theorem change_beginWriteback {slot : Fin N} (ht : s.tasks t = .begin f slot) :
    Change s (.advance t) (s.beginWriteback t f slot) := by
  have hnot : Change s (.advance t) (s.notBegun t slot f) := .of_moves (.notBegun ht)
  unfold Sys.beginWriteback
  split
  · exact hnot
  · rename_i b hca
    cases hbe : b.beginWriteback slot with
    | error why => exact .stop why
    | ok p =>
      obtain ⟨r, b'⟩ := p
      rcases Bcache.beginWriteback_eq_ok hbe with ⟨rfl, rfl⟩ | ⟨hd, rfl, hb⟩
      · simp only [setCache_self hca]
        exact hnot
      · exact .begun hca ht hd hb

theorem change_submit (ht : s.tasks t = .submit f w) :
    Change s (.advance t) (s.submit t f w) := by
  unfold Sys.submit
  split
  · exact .stop _
  · rename_i b _ hc
    exact .submitted hc ht
  · exact .stop _

theorem wroteBack_eq (s : Sys N) (t : Nat) (slot : Fin N) (outcome : Except BlockError Unit)
    (f : Flusher N) : ∃ task : Task N, task.hold = none ∧ s.wroteBack t slot outcome f =
      s.setTask t task := by
  cases f with
  | room k =>
    cases outcome with
    | ok u => exact ⟨_, hold_resume k, rfl⟩
    | error e => exact ⟨_, rfl, rfl⟩
  | sync y => exact ⟨_, hold_turn _, rfl⟩

theorem change_finishWriteback (h : Inv s) (ht : s.tasks t = .written f w outcome) :
    Change s (.advance t) (s.finishWriteback t f w outcome) := by
  unfold Sys.finishWriteback
  split
  · exact .stop _
  · rename_i b hc
    cases hfin : b.finishWriteback w.token outcome.toBool with
    | error why => exact .stop why
    | ok b' =>
      have hb := Bcache.finishWriteback_eq_ok (h.quiet_of_cache hc w.token.slot) hfin
      obtain ⟨task, hn, heq⟩ := wroteBack_eq (s.setCache b') t w.token.slot outcome f
      simp only [heq]
      cases outcome with
      | ok u => exact .cleaned hc ht hb hn
      | error e => exact .kept hc ht hb hn

theorem change_advance (h : Inv s) (hs : s.advance t = some s') : Change s (.advance t) s' := by
  cases Sys.section_of_advance hs with
  | moves hm => exact .of_moves hm
  | claim ht => exact change_claim ht
  | finishFill ht => exact h.change_finishFill ht
  | store ht => exact change_store ht
  | beginWriteback ht => exact change_beginWriteback ht
  | submit ht => exact change_submit ht
  | finishWriteback ht => exact h.change_finishWriteback ht

theorem change_complete (h : Inv s) (hs : s.complete t outcome junk = some s') :
    Change s (.complete t outcome junk) s' := by
  unfold Sys.complete at hs
  split at hs
  · rename_i c token b ht hc
    exact Option.some.inj hs ▸ .arrived hc ht
  · rename_i f w bytes ht
    obtain ⟨b, hc⟩ := h.holds (congrArg Task.hold ht)
    exact Option.some.inj hs ▸ .answered hc ht
  · cases hs

theorem change_drop (h : Inv s) (hs : s.drop t junk = some s') :
    Change s (.drop t junk) s' := by
  have hm : ∀ {task : Task N}, s.tasks t = task → task.hold = none →
      Change s (.drop t junk) (s.setTask t .idle) := fun ht hold =>
    .move_of_ne ((congrArg Task.hold ht).trans hold) rfl nofun
  unfold Sys.drop at hs
  split at hs
  · exact Option.some.inj hs ▸ hm ‹_› rfl
  · exact Option.some.inj hs ▸ hm ‹_› rfl
  · exact Option.some.inj hs ▸ hm ‹_› rfl
  · exact Option.some.inj hs ▸ hm ‹_› rfl
  · rename_i c token b ht hc
    split at hs
    · exact Option.some.inj hs ▸ .stop _
    · rename_i b' hd
      have hb := Bcache.dropFill_eq_ok (b := { b with frames := update b.frames token.slot junk })
        (h.quiet_of_cache hc token.slot) hd
      have hb : b.Becomes token.slot .empty junk false b' :=
        ⟨hb.slots, by rw [hb.frames]; simp, hb.filling⟩
      exact Option.some.inj hs ▸ .droppedFill hc ht hb
  · rename_i f w bytes b ht hc
    split at hs
    · exact Option.some.inj hs ▸ .stop _
    · rename_i b' hd
      have hb := Bcache.dropWriteback_eq_ok (h.quiet_of_cache hc w.token.slot) hd
      exact Option.some.inj hs ▸ .droppedWriteback hc ht hb
  · cases hs

theorem change_dropRef {r : BlockRef N} (hs : s.dropRef r = some s') :
    Change s (.dropRef r) s' := by
  unfold Sys.dropRef at hs
  split_ifs at hs with hr
  split at hs
  · exact Option.some.inj hs ▸ .stop _
  · rename_i b hc
    split at hs
    · exact Option.some.inj hs ▸ .stop _
    · rename_i b' hd
      exact Option.some.inj hs ▸ .unpinned hc hr (Bcache.dropRef_eq_ok hd)

theorem change (h : Inv s) {a : Act N} (hs : s.step a = some s') : Change s a s' := by
  obtain ⟨-, hs⟩ := Option.ite_none_left_eq_some.mp hs
  cases a with
  | init frames =>
    cases hs
    simp only [Sys.init]
    split
    · exact .quiet (.of_tasks_eq rfl rfl rfl rfl rfl)
    · exact .init ‹_›
  | tick => exact Option.some.inj hs ▸ .quiet (.of_tasks_eq rfl rfl rfl rfl rfl)
  | readBlock | writeBlock =>
    simp only at hs
    split_ifs at hs with hi
    cases hs
    simp only [Sys.readBlock, Sys.writeBlock]
    repeat' split
    all_goals exact .move_of_ne (hold_of_isIdle hi) rfl nofun
  | sync t =>
    simp only at hs
    split_ifs at hs with hi
    exact Option.some.inj hs ▸ .move_of_ne (hold_of_isIdle hi) rfl nofun
  | advance t => exact h.change_advance hs
  | complete t outcome junk => exact h.change_complete hs
  | drop t junk => exact h.change_drop hs
  | dropRef r => exact change_dropRef hs

end Inv

end Qunix.BufferCache
