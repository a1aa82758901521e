/-
`IrqSpinLock` on one processor.

A guard remembers the interrupt flag its acquisition found and puts that value back
when it is dropped. The processor is stepped through the moments of its calls: the
flag is cleared before the lock word is tried, and put back after the word is
released. What the guards and the call in progress have to put back (`Cpu.owed`)
holds the flag of the time before the first acquisition once, and otherwise only
`false`; so the flag comes back when the last guard goes, provided the guard that
saved it is the last to go.
-/

import Qunix.Lib.Run

namespace Qunix.Sync

open Function Qunix.Lib

variable {L : Type}

/-- The processor a run is on, and how the kernel was built. -/
structure Setting where
  /-- What `cpu_id_without_gs` finds. -/
  cpuId : Option UInt32
  /-- The feature of this name. -/
  deadlockPanic : Bool

/-- `Irq::cpu_index`. -/
def Setting.cpuIndex (m : Setting) : UInt32 := m.cpuId.getD 0xffffffff

/-- `owner` value meaning the lock is free. -/
def noOwner : UInt32 := 0xfffffffe

def deadlockSpins : Nat := 20000000

/-- A live `IrqSpinLockGuard`. -/
structure Guard (L : Type) where
  lock : L
  wasEnabled : Bool
deriving DecidableEq

/-- Where the processor is in a call. -/
inductive Phase (L : Type) where
  | running
  /-- In `lock`, about to try the word; the last two are read in `deadlock-panic`
  builds only. -/
  | locking (l : L) (wasEnabled : Bool) (watched : UInt32) (spins : Nat)
  /-- In `try_lock`, about to try the word. -/
  | trying (l : L) (wasEnabled : Bool)
  /-- About to restore: `try_lock` has failed, or a guard's `drop` has released the
  word. -/
  | restoring (wasEnabled : Bool)

/-- The flag that the call in progress holds. -/
def Phase.saved : Phase L → Option Bool
  | .running => none
  | .locking _ wasEnabled _ _ => some wasEnabled
  | .trying _ wasEnabled => some wasEnabled
  | .restoring wasEnabled => some wasEnabled

@[simp] theorem Phase.saved_running : (.running : Phase L).saved = none := rfl

@[simp] theorem Phase.saved_locking (l : L) (b : Bool) (watched : UInt32) (spins : Nat) :
    (Phase.locking l b watched spins).saved = some b := rfl

@[simp] theorem Phase.saved_trying (l : L) (b : Bool) : (Phase.trying l b).saved = some b := rfl

@[simp] theorem Phase.saved_restoring (b : Bool) : (.restoring b : Phase L).saved = some b := rfl

structure Cpu (L : Type) where
  interrupts : Bool
  /-- This processor's `LOCK_DEPTH`. -/
  depth : UInt32
  locked : L → Bool
  owner : L → UInt32
  guards : List (Guard L)
  phase : Phase L

namespace Cpu

/-- `Irq::disable_and_save`. -/
def disableAndSave (s : Cpu L) : Bool × Cpu L :=
  (s.interrupts, { s with interrupts := false })

/-- `tlb::lock_depth`. -/
def lockDepth (m : Setting) (s : Cpu L) : UInt32 :=
  match m.cpuId with
  | some _ => s.depth
  | none => 0

/-- `Irq::restore`; the assertion is there in `deadlock-panic` builds. -/
def restore (m : Setting) (wasEnabled : Bool) (s : Cpu L) : Option (Cpu L) :=
  if m.deadlockPanic && (wasEnabled && s.lockDepth m != 0) then none
  else some (if wasEnabled then { s with interrupts := true } else s)

/-- `tlb::enter_lock`. -/
def enteredLock (m : Setting) (s : Cpu L) : Cpu L :=
  match m.cpuId with
  | some _ => { s with depth := s.depth + 1 }
  | none => s

/-- `tlb::leave_lock`. -/
def leftLock (m : Setting) (s : Cpu L) : Cpu L :=
  match m.cpuId with
  | some _ => { s with depth := s.depth - 1 }
  | none => s

/-- One turn of the loop in `lock` that found the word taken. -/
def spin (m : Setting) (s : Cpu L) (l : L) (wasEnabled : Bool) (watched : UInt32) (spins : Nat) :
    Option (Cpu L) :=
  -- `service_while_waiting` answers shootdowns; it leaves the flag and the locks alone.
  if m.deadlockPanic then
    let spins := (if s.owner l = watched then spins else 0) + 1
    if deadlockSpins ≤ spins ∧ s.owner l ≠ noOwner then none
    else some { s with phase := .locking l wasEnabled (s.owner l) spins }
  else some s

/-- The flag found at the start of `lock` stays with the call. -/
theorem spin_spec {m : Setting} {s t : Cpu L} {l : L} {b : Bool} {watched : UInt32} {spins : Nat}
    (hp : s.phase = .locking l b watched spins)
    (h : s.spin m l b watched spins = some t) :
    t.phase.saved = some b ∧ t = { s with phase := t.phase } := by
  unfold spin at h
  split at h
  · dsimp only at h
    generalize (if s.owner l = watched then spins else 0) + 1 = turns at h
    split at h
    · cases h
    · cases h
      exact ⟨rfl, rfl⟩
  · cases h
    exact ⟨by simp [hp], rfl⟩

variable [DecidableEq L]

/-- `SpinLock::try_lock`. -/
def exchange (s : Cpu L) (l : L) : Option (Cpu L) :=
  if s.locked l then none else some { s with locked := update s.locked l true }

/-- What `lock` and `try_lock` do once the word is theirs. -/
def hold (m : Setting) (s : Cpu L) (l : L) (wasEnabled : Bool) : Cpu L :=
  let s := enteredLock m { s with owner := update s.owner l m.cpuIndex }
  { s with guards := ⟨l, wasEnabled⟩ :: s.guards, phase := .running }

/-- `IrqSpinLockGuard::drop` up to the release of the word. -/
def release (m : Setting) (s : Cpu L) (g : Guard L) : Cpu L :=
  let s := leftLock m { s with owner := update s.owner g.lock noOwner }
  { s with
    locked := update s.locked g.lock false
    guards := s.guards.erase g
    phase := .restoring g.wasEnabled }

section

variable (m : Setting) (s : Cpu L) (l : L) (b : Bool) (g : Guard L)

@[simp] theorem hold_interrupts : (s.hold m l b).interrupts = s.interrupts := by
  unfold hold enteredLock
  cases m.cpuId <;> rfl

@[simp] theorem hold_guards : (s.hold m l b).guards = ⟨l, b⟩ :: s.guards := by
  unfold hold enteredLock
  cases m.cpuId <;> rfl

@[simp] theorem hold_phase : (s.hold m l b).phase = .running := rfl

@[simp] theorem release_interrupts : (s.release m g).interrupts = s.interrupts := by
  unfold release leftLock
  cases m.cpuId <;> rfl

@[simp] theorem release_guards : (s.release m g).guards = s.guards.erase g := by
  unfold release leftLock
  cases m.cpuId <;> rfl

@[simp] theorem release_phase : (s.release m g).phase = .restoring g.wasEnabled := rfl

end

end Cpu

inductive Act (L : Type) where
  | lock (l : L)
  | tryLock (l : L)
  /-- The call in progress goes on. -/
  | proceed
  | drop (g : Guard L)
  /-- Another processor takes or releases a lock. -/
  | taken (l : L) (cpu : UInt32)
  | released (l : L)

open Cpu in
def step [DecidableEq L] (m : Setting) (s : Cpu L) : Act L → Option (Cpu L)
  | .lock l =>
    match s.phase with
    | .running =>
      let (wasEnabled, s) := s.disableAndSave
      some { s with phase := .locking l wasEnabled noOwner 0 }
    | _ => none
  | .tryLock l =>
    match s.phase with
    | .running =>
      let (wasEnabled, s) := s.disableAndSave
      some { s with phase := .trying l wasEnabled }
    | _ => none
  | .proceed =>
    match s.phase with
    | .running => none
    | .locking l wasEnabled watched spins =>
      match s.exchange l with
      | some s => some (s.hold m l wasEnabled)
      | none => s.spin m l wasEnabled watched spins
    | .trying l wasEnabled =>
      match s.exchange l with
      | some s => some (s.hold m l wasEnabled)
      | none => some { s with phase := .restoring wasEnabled }
    | .restoring wasEnabled => restore m wasEnabled { s with phase := .running }
  | .drop g =>
    match s.phase with
    | .running => if g ∈ s.guards then some (s.release m g) else none
    | _ => none
  | .taken l cpu =>
    if s.locked l then none
    else some { s with locked := update s.locked l true, owner := update s.owner l cpu }
  | .released l =>
    if s.locked l = true ∧ ∀ g ∈ s.guards, g.lock ≠ l then
      some { s with locked := update s.locked l false, owner := update s.owner l noOwner }
    else none

abbrev Step [DecidableEq L] (m : Setting) (s : Cpu L) (a : Act L) (t : Cpu L) : Prop :=
  step m s a = some t

/-- A guard that found interrupts enabled is dropped only when it is the last. -/
def LastOut (s : Cpu L) (a : Act L) : Prop :=
  ∀ g, a = .drop g → g.wasEnabled = true → s.guards = [g]

/-- No call in progress and no guard. -/
structure Cpu.Idle (s : Cpu L) : Prop where
  phase : s.phase = .running
  guards : s.guards = []

/-! ### What is to be put back -/

/-- The flags that the call in progress and the guards will put back. -/
def Cpu.owed (s : Cpu L) : List Bool := s.phase.saved.toList ++ s.guards.map (·.wasEnabled)

/-- `e` is the flag of the time before the first acquisition. -/
structure Nested (e : Bool) (s : Cpu L) : Prop where
  masked : s.owed ≠ [] → s.interrupts = false
  idle : s.owed = [] → s.interrupts = e
  owed : s.owed ≠ [] → s.owed.count true = e.toNat
  alone : s.phase.saved = some true → s.guards = []

namespace Nested

variable {m : Setting} {e : Bool} {s t : Cpu L} {a : Act L}

variable (h : Nested e s)

include h

/-- Steps that only hand what is owed from one place to another. -/
theorem transfer (hint : t.interrupts = s.interrupts) (ho : t.owed.Perm s.owed)
    (ha : t.phase.saved = some true → t.guards = []) :
    Nested e t := by
  have hnil : t.owed = [] ↔ s.owed = [] := by
    constructor
    · intro hn
      exact (hn ▸ ho).symm.eq_nil
    · intro hn
      exact (hn ▸ ho).eq_nil
  constructor
  case masked =>
    intro hne
    rw [hint]
    exact h.masked (mt hnil.mpr hne)
  case idle =>
    intro hn
    rw [hint]
    exact h.idle (hnil.mp hn)
  case owed =>
    intro hne
    rw [ho.count_eq]
    exact h.owed (mt hnil.mpr hne)
  case alone => exact ha

theorem waits {p : Phase L} (hp : p.saved = s.phase.saved) :
    Nested e { s with phase := p } := by
  apply h.transfer
  · rfl
  · rw [Cpu.owed, Cpu.owed, hp]
  · intro hs
    exact h.alone (hp.symm.trans hs)

theorem mask (hph : s.phase = .running) {p : Phase L} (hp : p.saved = some s.interrupts)
    : Nested e { s with interrupts := false, phase := p } := by
  have hb : s.owed = s.guards.map (·.wasEnabled) := by simp [Cpu.owed, hph]
  have ha : ({ s with interrupts := false, phase := p } : Cpu L).owed =
      s.interrupts :: s.owed := by
    rw [hb]
    simp [Cpu.owed, hp]
  constructor
  case masked => exact fun _ => rfl
  case idle => simp [ha]
  case owed =>
    intro _
    rw [ha]
    by_cases hne : s.owed = []
    · rw [h.idle hne, hne]
      cases e <;> rfl
    · rw [h.masked hne, List.count_cons_of_ne (by decide), h.owed hne]
  case alone =>
    intro hs
    have hint : s.interrupts = true := Option.mem_unique hp hs
    by_contra hne
    have hm := h.masked (by simpa [hb] using hne)
    simp [hint] at hm

/-- `Irq::restore` at the end of a call. -/
theorem restore {b : Bool} (hp : s.phase = .restoring b)
    (hres : Cpu.restore m b { s with phase := .running } = some t) : Nested e t := by
  have ho : s.owed = b :: s.guards.map (·.wasEnabled) := by
    simp [Cpu.owed, hp]
  have hm : s.interrupts = false := h.masked (by simp [ho])
  have hc := h.owed (by simp [ho])
  have ht : t = { s with phase := .running, interrupts := b } := by
    unfold Cpu.restore at hres
    split at hres
    · cases hres
    · cases b <;> simp_all
  subst ht
  cases b with
  | true =>
    -- the guard that saved the flag was the last
    have hg := h.alone (by simp [hp])
    have he : e = true := by
      cases e
      · simp [ho, hg] at hc
      · rfl
    constructor <;> simp [Cpu.owed, hg, he]
  | false =>
    rw [ho] at hc
    have ha : ({ s with phase := .running, interrupts := false } : Cpu L).owed =
        s.guards.map (·.wasEnabled) := by
      simp [Cpu.owed]
    constructor
    case masked => exact fun _ => rfl
    case idle =>
      intro hn
      rw [ha] at hn
      rw [hn] at hc
      cases e
      · rfl
      · simp at hc
    case owed =>
      intro _
      exact hc
    case alone => simp

variable [DecidableEq L]

theorem hold {l : L} {b : Bool} (hs : s.phase.saved = some b) (hex : s.exchange l = some t)
    : Nested e (t.hold m l b) := by
  have ht : t = { s with locked := update s.locked l true } := by
    unfold Cpu.exchange at hex
    split at hex
    · cases hex
    · exact (Option.some.inj hex).symm
  subst ht
  have ho : s.owed = b :: s.guards.map (·.wasEnabled) := by
    unfold Cpu.owed
    rw [hs]
    rfl
  apply h.transfer
  · exact Cpu.hold_interrupts _ _ _ _
  · rw [ho]
    simp [Cpu.owed]
  · simp

theorem release {g : Guard L} (hp : s.phase = .running) (hg : g ∈ s.guards)
    (hl : g.wasEnabled = true → s.guards = [g]) : Nested e (s.release m g) := by
  apply h.transfer
  · exact Cpu.release_interrupts _ _ _
  · have hpe := ((List.perm_cons_erase hg).map Guard.wasEnabled).symm
    simpa [Cpu.owed, hp] using hpe
  · intro hs
    have ht : g.wasEnabled = true := by simpa using hs
    simp [hl ht]

theorem step (hl : LastOut s a) (hst : Step m s a t) : Nested e t := by
  cases a with
  | lock l | tryLock l =>
    cases hp : s.phase <;> simp [Step, Sync.step, hp] at hst
    subst hst
    exact h.mask hp rfl
  | proceed =>
    cases hp : s.phase with
    | running => simp [Step, Sync.step, hp] at hst
    | locking l b watched spins =>
      have hs : s.phase.saved = some b := by simp [hp]
      cases hex : s.exchange l with
      | some u =>
        simp only [Step, Sync.step, hp, hex, Option.some.injEq] at hst
        exact hst ▸ h.hold hs hex
      | none =>
        simp only [Step, Sync.step, hp, hex] at hst
        obtain ⟨hs', ht⟩ := Cpu.spin_spec hp hst
        rw [ht]
        exact h.waits (hs'.trans hs.symm)
    | trying l b =>
      have hs : s.phase.saved = some b := by simp [hp]
      cases hex : s.exchange l with
      | some u =>
        simp only [Step, Sync.step, hp, hex, Option.some.injEq] at hst
        exact hst ▸ h.hold hs hex
      | none =>
        simp only [Step, Sync.step, hp, hex, Option.some.injEq] at hst
        subst hst
        exact h.waits hs.symm
    | restoring b =>
      simp only [Step, Sync.step, hp] at hst
      exact h.restore hp hst
  | drop g =>
    cases hp : s.phase <;> simp [Step, Sync.step, hp] at hst
    obtain ⟨hg, rfl⟩ := hst
    exact h.release hp hg (hl g rfl)
  | taken l cpu =>
    simp only [Step, Sync.step] at hst
    split at hst
    · cases hst
    · cases hst
      exact h.transfer rfl (.refl _) h.alone
  | released l =>
    simp only [Step, Sync.step] at hst
    split at hst
    · cases hst
      exact h.transfer rfl (.refl _) h.alone
    · cases hst

end Nested

/-! ### Runs -/

theorem Cpu.Idle.nested {s : Cpu L} (h : s.Idle) : Nested s.interrupts s := by
  have ho : s.owed = [] := by simp [Cpu.owed, h.phase, h.guards]
  constructor
  case masked => exact fun hne => absurd ho hne
  case idle => exact fun _ => rfl
  case owed => exact fun hne => absurd ho hne
  case alone => exact fun _ => h.guards

/-- From a processor that holds nothing, over every run that keeps to `LastOut`:
interrupts are masked while a guard is live, and when no guard is left they are as
they were. -/
theorem masked_while_held [DecidableEq L] (m : Setting) (s t : Cpu L) (as : List (Act L))
    (hidle : s.Idle)
    (hrun : Run (fun s a t => Step m s a t ∧ LastOut s a) s as t) :
    (t.guards ≠ [] → t.interrupts = false) ∧ (t.Idle → t.interrupts = s.interrupts) := by
  have h : Nested s.interrupts t :=
    hrun.invariant (fun _ _ _ hn hst => hn.step hst.2 hst.1) hidle.nested
  constructor
  · intro hne
    exact h.masked (by simp [Cpu.owed, hne])
  · intro hidle
    exact h.idle (by simp [Cpu.owed, hidle.phase, hidle.guards])

/-- The other way round: where the check is not compiled in, a guard that found
interrupts enabled and is not the last enables them under the others. -/
theorem drop_unmasks [DecidableEq L] {m : Setting} {s : Cpu L} {g : Guard L}
    (hb : m.deadlockPanic = false) (hp : s.phase = .running) (hg : g ∈ s.guards)
    (hs : g.wasEnabled = true) (ho : s.guards.erase g ≠ []) :
    ∃ t, Run (Step m) s [.drop g, .proceed] t ∧ t.guards = s.guards.erase g ∧
      t.guards ≠ [] ∧ t.interrupts = true := by
  have hd : Step m s (.drop g) (s.release m g) := by simp [Step, step, hp, hg]
  have hr : Step m (s.release m g) .proceed
      { s.release m g with phase := .running, interrupts := true } := by
    simp [Step, step, Cpu.restore, hb, hs]
  refine ⟨_, .cons hd (.cons hr (.nil _)), ?_, ?_, rfl⟩
  · exact Cpu.release_guards m s g
  · rw [Cpu.release_guards m s g]
    exact ho

/-- A processor that holds nothing, with interrupts enabled and every lock free. -/
def Cpu.fresh : Cpu Bool :=
  ⟨true, 0, fun _ => false, fun _ => noOwner, [], .running⟩

/-- A shipped kernel's first processor. -/
def Setting.shipped : Setting := ⟨some 0, false⟩

/-- Two guards, the inner dropped first. -/
theorem masked_while_held_inner_first : ∃ t : Cpu Bool,
    Run (fun s a t => Step .shipped s a t ∧ LastOut s a) .fresh
      [.lock false, .proceed, .lock true, .proceed, .drop ⟨true, false⟩, .proceed,
        .drop ⟨false, true⟩, .proceed] t ∧
    (t.guards ≠ [] → t.interrupts = false) ∧
    (t.Idle → t.interrupts = Cpu.fresh.interrupts) := by
  have hrun : ∃ t : Cpu Bool, Run (fun s a t => Step .shipped s a t ∧ LastOut s a) .fresh
      [.lock false, .proceed, .lock true, .proceed, .drop ⟨true, false⟩, .proceed,
        .drop ⟨false, true⟩, .proceed] t := by
    refine ⟨_, .cons ⟨rfl, ?_⟩ (.cons ⟨rfl, ?_⟩ (.cons ⟨rfl, ?_⟩ (.cons ⟨rfl, ?_⟩ (.cons ⟨rfl, ?_⟩
      (.cons ⟨rfl, ?_⟩ (.cons ⟨rfl, ?_⟩ (.cons ⟨rfl, ?_⟩ (.nil _))))))))⟩
    case refine_5 =>
      rintro g ⟨⟩ hg
      cases hg
    case refine_7 =>
      rintro g ⟨⟩ _
      rfl
    all_goals
      intro g hg
      cases hg
  obtain ⟨t, hrun⟩ := hrun
  exact ⟨t, hrun, masked_while_held .shipped .fresh t _ ⟨rfl, rfl⟩ hrun⟩

/-- The outer guard dropped first enables interrupts under the inner one. -/
theorem outer_first_unmasks : ∃ t : Cpu Bool,
    Run (Step .shipped) .fresh
      [.lock false, .proceed, .lock true, .proceed, .drop ⟨false, true⟩, .proceed] t ∧
    t.guards = [⟨true, false⟩] ∧ t.interrupts = true := by
  -- both locks taken
  obtain ⟨s, hrun, hphase, hguards⟩ : ∃ s : Cpu Bool, Run (Step .shipped) .fresh
      [.lock false, .proceed, .lock true, .proceed] s ∧ s.phase = .running ∧
      s.guards = [⟨true, false⟩, ⟨false, true⟩] :=
    ⟨_, .cons rfl (.cons rfl (.cons rfl (.cons rfl (.nil _)))), rfl, rfl⟩
  have herase : s.guards.erase ⟨false, true⟩ = [⟨true, false⟩] := by
    rw [hguards]
    decide
  obtain ⟨t, hdrop, hleft, -, hint⟩ :=
    drop_unmasks (m := .shipped) (g := ⟨false, true⟩) rfl hphase
    (by simp [hguards]) rfl (by simp [herase])
  exact ⟨t, hrun.append hdrop, hleft.trans herase, hint⟩

end Qunix.Sync
