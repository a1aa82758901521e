/-
Chains that nobody frees.

A slot that no call owns waits for its completion, which frees it; one whose
completion was already taken waits for its call. A slot that is abandoned after
its completion was taken has neither, and its three descriptors never return.
`finish` abandons without looking at `done`, so this happens when the completion
arrives between `poll_device` and the poll of the deadline, and when the device
writes the status byte that stands for a timeout.
-/

import Qunix.Block.Exclusive

namespace Qunix.Block

open Function Qunix.Virtio Qunix.Lib
open Qunix.BufferCache (Bytes BlkStatus BlockError)

/-- The call returned, or was dropped, or was never made. -/
def Call.over : Call → Bool
  | .idle | .done _ _ => true
  | _ => false

/-- `finish` is not told of a timeout for a request whose completion was taken. -/
def Sys.timesOutUndone (s : Sys) (a : Act) : Bool :=
  match a with
  | .advance t =>
    match s.calls t with
    | .finish _ head status =>
      status != statusTimedOut || !((s.blk.slots head).map Slot.done).getD false
    | _ => true
  | _ => true

/-- No slot is done and abandoned. -/
def Blk.Reclaimable (blk : Blk) : Prop :=
  ∀ h sl, blk.slots h = some sl → sl.abandoned = true → sl.done = false

namespace Blk.Reclaimable

variable {blk blk' : Blk} {h : Nat}

theorem update_slot (hr : blk.Reclaimable) {x : Option Slot}
    (hx : ∀ sl, x = some sl → sl.abandoned = true → sl.done = false)
    (hs : blk'.slots = update blk.slots h x) : blk'.Reclaimable := by
  intro k sl hsl
  rw [hs] at hsl
  rw [update_apply] at hsl
  split_ifs at hsl with hk
  · exact hx sl hsl
  · exact hr k sl hsl

theorem abandon (hr : blk.Reclaimable) (hu : ∀ sl, blk.slots h = some sl → sl.done = false) :
    (blk.abandon h).Reclaimable := by
  refine hr.update_slot (fun sl hsl _ => ?_) rfl
  obtain ⟨sl₀, hsl₀, rfl⟩ := Option.map_eq_some_iff.mp hsl
  exact hu sl₀ hsl₀

theorem handled (hr : blk.Reclaimable) {d : DeviceInput} {n : Nat}
    {chains chains' : List (List Nat)} {taken : List Nat}
    (hh : Handled d n blk chains taken blk' chains') : blk'.Reclaimable := by
  induction hh with
  | nil => exact hr
  | skipped _ _ ih => exact ih hr
  | landed _ ha _ _ _ _ _ _ ih =>
    refine ih (hr.update_slot (fun sl hsl hsl' => ?_) rfl)
    rw [← Option.some.inj hsl, ha] at hsl'
    cases hsl'
  | freed _ _ _ _ _ _ _ _ _ ih => exact ih (hr.update_slot (x := none) nofun rfl)

end Blk.Reclaimable

variable {s s' : Sys} {chains : List (List Nat)} {free : List Nat} {as : List Act}

theorem Change.reclaimable {a : Act} {chains' : List (List Nat)} (c : Change s chains a s' chains')
    (hg : s.timesOutUndone a = true) (hr : s.blk.Reclaimable) : s'.blk.Reclaimable := by
  cases c with
  | submitted => exact hr.update_slot (by simp) rfl
  | finished | droppedDone => exact hr.update_slot (x := none) nofun rfl
  | timedOut hc =>
    refine hr.abandon fun sl hsl => ?_
    simpa [Sys.timesOutUndone, hc, hsl] using hg
  | dropped _ hsl hd =>
    refine hr.abandon fun sl hsl' => ?_
    rw [← Option.mem_unique hsl hsl', hd]
  | handled _ hh => exact hr.handled hh
  | _ => exact hr

/-- Without calls and without chains in flight, every slot is free. -/
theorem Inv.slots_eq_none {log : List Event} (i : Inv s free chains) (k : Tracked s log chains)
    (hr : s.blk.Reclaimable) (ho : ∀ t, (s.calls t).over = true)
    (hco : ∀ h c, ¬ Outstanding log h c) (h : Nat) :
    s.blk.slots h = none := by
  by_contra hne
  obtain ⟨sl, hsl⟩ := Option.ne_none_iff_exists'.mp hne
  have ha : sl.abandoned = true := by
    refine (i.held.kept h sl hsl).resolve_right fun ⟨t, ht⟩ => ?_
    have := ho t
    cases hca : s.calls t <;> simp [hca, Call.over, Call.head?] at this ht
  have hf : s.blk.queue.inFlight h = true := by
    rw [i.owned.flight h sl hsl, hr h sl hsl ha]
    rfl
  obtain ⟨c, hc⟩ := i.owned.chain_of_slot hsl
  exact hco h (h :: c) ((k.flying _ _).mpr ⟨hf, hc, rfl⟩)

theorem Inv.chains_eq_nil (i : Inv s free chains) (hn : ∀ h, s.blk.slots h = none) :
    chains = [] := by
  refine List.eq_nil_iff_forall_not_mem.mpr fun c hc => ?_
  cases c with
  | nil => exact absurd (i.owned.three _ hc) (by decide)
  | cons h c =>
    obtain ⟨sl, hsl⟩ := (i.owned.slot h).mpr ⟨h :: c, hc, rfl⟩
    rw [hn h] at hsl
    cases hsl

/-- In every run in which `finish` is told of a timeout only while the completion
was not taken, no slot is done and abandoned, and once every published chain was
completed and every call has returned or was dropped, every slot is empty and
every descriptor is on the free list. -/
theorem nothing_leaked {metaPhys dataPhys : Nat} {bounce : Nat → Bytes} {as : List Act}
    {s : Sys} {log : List Event}
    (hrun : Run (fun p a q => Logged Sys.Step Sys.event p a q ∧ p.1.timesOutUndone a = true)
      (.boot metaPhys dataPhys bounce, []) as (s, log)) :
    (∀ h sl, s.blk.slots h = some sl → ¬ (sl.done = true ∧ sl.abandoned = true)) ∧
      ((∀ h c, ¬ Outstanding log h c) → (∀ t, (s.calls t).over = true) →
        (∀ h, s.blk.slots h = none) ∧ s.blk.queue.free = queueSize ∧
        ∃ free, Links (fun i => (s.blk.queue.desc i).next) s.blk.queue.freeHead free nil ∧
          free.Perm (List.range queueSize)) := by
  have hr : s.blk.Reclaimable := by
    refine (hrun.invariant (p := fun p => (∃ free chains, Inv p.1 free chains) ∧
      p.1.blk.Reclaimable) ?_ ⟨⟨_, [], .boot metaPhys dataPhys bounce⟩, nofun⟩).2
    rintro p a q ⟨⟨free, chains, i⟩, hr⟩ ⟨⟨hst, -⟩, hguard⟩
    obtain ⟨free', chains', c, i'⟩ := i.step hst
    exact ⟨⟨free', chains', i'⟩, c.reclaimable hguard hr⟩
  obtain ⟨free, chains, i, k⟩ := tracked_of_run (hrun.mono fun _ _ _ => And.left)
  refine ⟨fun h sl hsl hboth => ?_, fun hcompleted hover => ?_⟩
  · exact absurd (hr h sl hsl hboth.2) (by simp [hboth.1])
  · have hnone := i.slots_eq_none k hr hover hcompleted
    have hperm := i.owned.laid.perm
    rw [i.chains_eq_nil hnone, List.flatten_nil, List.append_nil, i.owned.size] at hperm
    refine ⟨hnone, ?_, free, i.owned.laid.links, hperm⟩
    rw [i.owned.laid.count, hperm.length_eq, List.length_range]

/-! ### Single runs -/

theorem calls_of_run {t : Nat} (i : Inv s free chains) (hrun : Run Sys.Step s as s')
    (ht : ∀ a ∈ as, a.thread? ≠ some t) : s'.calls t = s.calls t := by
  induction hrun generalizing free chains with
  | nil => rfl
  | cons hst _ ih =>
    obtain ⟨free', chains', c, i'⟩ := i.step hst
    rw [ih i' fun a ha => ht a (List.mem_cons_of_mem _ ha), c.calls_of_ne (ht _ List.mem_cons_self)]

theorem over_of_run {metaPhys dataPhys : Nat} {bounce : Nat → Bytes}
    (hrun : Run Sys.Step (.boot metaPhys dataPhys bounce) as s)
    (hone : ∀ a ∈ as, a.thread? = none ∨ a.thread? = some 0) (h : (s.calls 0).over = true)
    (t : Nat) :
    (s.calls t).over = true := by
  by_cases ht : t = 0
  · rw [ht, h]
  · rw [calls_of_run (.boot metaPhys dataPhys bounce) hrun fun a ha => ?_]
    · rfl
    · rcases hone a ha with hn | hz
      · simp [hn]
      · simp [hz, Ne.symm ht]

theorem not_outstanding_completed {h h' : Nat} {c c' : List Nat} :
    ¬ Outstanding [.completed [h], .published h c] h' c' := by
  rw [outstanding_completed, outstanding_published]
  rintro ⟨hne, ⟨rfl, -⟩ | hout⟩
  · exact hne List.mem_cons_self
  · exact not_outstanding_nil hout

/-- A read whose future is dropped, and whose completion then frees its chain. -/
theorem nothing_leaked_dropped_read :
    ∃ p : Sys × List Event,
      Run (fun p a q => Logged Sys.Step Sys.event p a q ∧ p.1.timesOutUndone a = true)
        (.boot 0 0 fun _ => [], [])
        [.call 0 .readSector, .reserve 0 true, .advance 0, .advance 0, .advance 0, .drop 0,
          .interrupt (.one 1 0 0)] p ∧
      p.2 = [.completed [0], .published 0 [0, 1, 2]] ∧ (∀ h, p.1.blk.slots h = none) ∧
      p.1.blk.queue.free = queueSize := by
  refine exists_run (fun _ _ _ => logged_of_guarded)
    (f := guarded (fun p a => p.1.timesOutUndone a) (logging Sys.step Sys.event))
    (p := fun p => p.2 = [.completed [0], .published 0 [0, 1, 2]] ∧ (p.1.calls 0).over = true)
    (by decide +kernel) fun p hrun hend => ?_
  obtain ⟨hlog, hover⟩ := hend
  have hfree := (nothing_leaked hrun).2 (hlog ▸ fun _ _ => not_outstanding_completed)
    (over_of_run (hrun.mono fun _ _ _ => And.left).of_logged (by decide) hover)
  exact ⟨hlog, hfree.1, hfree.2.1⟩

/-- The completion arrives after `poll_device` found nothing and before the
deadline is polled; the request has timed out, its chain was completed, its call
has returned, and its three descriptors stay out of the free list. -/
theorem completed_chain_leaked :
    ∃ p : Sys × List Event,
      Run (Logged Sys.Step Sys.event) (.boot 0 0 fun _ => [], [])
        ([.call 0 .readSector, .reserve 0 true, .advance 0, .advance 0, .interrupt (.one 1 0 0)] ++
          List.replicate requestTimeoutTicks .tick ++ [.advance 0, .advance 0]) p ∧
      (∀ h c, ¬ Outstanding p.2 h c) ∧ (∀ t, (p.1.calls t).over = true) ∧
      p.1.blk.slots 0 = some { done := true, status := 0, len := 0, abandoned := true } ∧
      p.1.blk.queue.free = queueSize - 3 := by
  refine exists_run (fun _ _ _ => logged_of_logging)
    (p := fun p : Sys × List Event => p.2 = [.completed [0], .published 0 [0, 1, 2]] ∧
      (p.1.calls 0).over = true ∧
      p.1.blk.slots 0 = some { done := true, status := 0, len := 0, abandoned := true } ∧
      p.1.blk.queue.free = queueSize - 3)
    (by decide +kernel) fun p hrun hend => ?_
  obtain ⟨hlog, hover, hslot, hfree⟩ := hend
  exact ⟨hlog ▸ fun _ _ => not_outstanding_completed,
    over_of_run hrun.of_logged (by decide +kernel) hover, hslot, hfree⟩

end Qunix.Block
