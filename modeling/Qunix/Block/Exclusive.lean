/-
No two outstanding requests share memory.

The log of a run has each chain when it is published and the heads each run of
the completion handler takes. The chains published and not taken since are the
live chains in flight (`Tracked`); a new chain comes off the free list, so it
shares no descriptor with them.
-/

import Qunix.Block.Changes

namespace Qunix.Block

open Function Qunix.Virtio Qunix.Lib
open Qunix.BufferCache (Bytes BlkStatus BlockError)

inductive Event where
  /-- A request was published, over these descriptors. -/
  | published (head : Nat) (chain : List Nat)
  /-- `take_used` returned these heads, in a run of the completion handler. -/
  | completed (heads : List Nat)
deriving DecidableEq, Repr

/-- What a step shows. The chain is walked as the device walks it. -/
def Sys.event (s : Sys) (a : Act) (s' : Sys) : Option Event :=
  match a with
  | .advance t =>
    match s.calls t, s'.calls t with
    | .submit _ _, .poll _ head _ => some (.published head (s'.blk.queue.chain queueSize head))
    | _, _ => none
  | .interrupt d =>
    match s.blk.handleCompletion d with
    | .ok (heads, _) => some (.completed heads)
    | .error _ => none
  | _ => none

/-- A chain that was published and not taken since. -/
def Outstanding (log : List Event) (h : Nat) (c : List Nat) : Prop :=
  ∃ later, Since (.published h c) later log ∧ ∀ heads, .completed heads ∈ later → h ∉ heads

variable {h h' h₂ h₁ : Nat} {c c' c₂ : List Nat} {log : List Event} {s : Sys}

theorem not_outstanding_nil : ¬ Outstanding [] h c :=
  fun ⟨_, hs, _⟩ => not_since_nil hs

theorem outstanding_published :
    Outstanding (.published h c :: log) h' c' ↔ (h' = h ∧ c' = c) ∨ Outstanding log h' c' := by
  constructor
  · rintro ⟨later, hs, hl⟩
    rcases since_cons.mp hs with ⟨-, heq⟩ | ⟨l, rfl, hp⟩
    · injection heq with hh hc
      exact .inl ⟨hh.symm, hc.symm⟩
    · exact .inr ⟨l, hp, fun heads hmem => hl heads (List.mem_cons_of_mem _ hmem)⟩
  · rintro (⟨rfl, rfl⟩ | ⟨l, hs, hl⟩)
    · exact ⟨[], since_cons.mpr (.inl ⟨rfl, rfl⟩), nofun⟩
    · exact ⟨_, since_cons.mpr (.inr ⟨l, rfl, hs⟩), fun heads hmem =>
        hl heads ((List.mem_cons.mp hmem).resolve_left nofun)⟩

theorem outstanding_completed {heads : List Nat} :
    Outstanding (.completed heads :: log) h c ↔ h ∉ heads ∧ Outstanding log h c := by
  constructor
  · rintro ⟨later, hs, hl⟩
    obtain ⟨l, rfl, hp⟩ := (since_cons.mp hs).resolve_left nofun
    exact ⟨hl heads List.mem_cons_self,
      l, hp, fun heads' hmem => hl heads' (List.mem_cons_of_mem _ hmem)⟩
  · rintro ⟨hh, l, hs, hl⟩
    refine ⟨_, since_cons.mpr (.inr ⟨l, rfl, hs⟩), fun heads' hmem => ?_⟩
    rcases List.mem_cons.mp hmem with heq | hmem
    · injection heq with heq
      exact heq ▸ hh
    · exact hl heads' hmem

/-! ### The chains in flight -/

/-- A live chain whose completion was not taken. -/
def Flying (blk : Blk) (chains : List (List Nat)) (h : Nat) (c : List Nat) : Prop :=
  blk.queue.inFlight h = true ∧ c ∈ chains ∧ c.head? = some h

section Flying

variable {blk blk' : Blk} {chains chains' : List (List Nat)} {h h' : Nat} {c c' : List Nat}

/-- A chain that is freed is no longer in flight, and the others are as before. -/
theorem flying_of_perm (hq : blk'.queue.inFlight = update blk.queue.inFlight h false)
    (hp : ((h :: c) :: chains').Perm chains) :
    Flying blk' chains' h' c' ↔ h' ≠ h ∧ Flying blk chains h' c' := by
  unfold Flying
  rw [hq, ← hp.mem_iff]
  by_cases hh : h' = h
  · simp [hh]
  · have hne : c'.head? = some h' → c' ≠ h :: c := by
      rintro hhe rfl
      exact hh (Option.some.inj hhe).symm
    rw [update_of_ne hh, List.mem_cons]
    tauto

theorem flying_of_handled {d : DeviceInput} {n : Nat} {taken : List Nat}
    (hh : Handled d n blk chains taken blk' chains') :
    Flying blk' chains' h' c' ↔ h' ∉ taken ∧ Flying blk chains h' c' := by
  induction hh with
  | nil => simp
  | skipped hq _ ih => rw [ih, Flying, hq, Flying]
  | @landed _ _ _ _ _ h _ _ _ _ _ _ _ _ _ _ _ hq _ ih =>
    rw [ih]
    unfold Flying
    by_cases hne : h' = h
    · simp [hq, hne]
    · simp [hq, hne]
  | freed _ _ _ _ _ _ hq hp _ ih =>
    rw [ih, flying_of_perm hq hp, List.mem_cons]
    tauto

end Flying

/-- A chain not in flight may go; the chains in flight stay. -/
theorem Inv.flying_of_done {free : List Nat} {chains chains' : List (List Nat)}
    (i : Inv s free chains) {blk' : Blk} {sl : Slot} (hsl : s.blk.slots h = some sl)
    (hd : sl.done = true) (hq : blk'.queue.inFlight = update s.blk.queue.inFlight h false)
    (hp : ((h :: c) :: chains').Perm chains) :
    Flying blk' chains' h' c' ↔ Flying s.blk chains h' c' := by
  rw [flying_of_perm hq hp, and_iff_right_iff_imp]
  rintro ⟨hf, -⟩ rfl
  rw [i.owned.flight _ sl hsl, hd] at hf
  cases hf

/-! ### Runs -/

/-- A chain is published over none of the descriptors of those outstanding. -/
def Exclusive (log : List Event) : Prop :=
  ∀ later h₂ c₂ before, log = later ++ .published h₂ c₂ :: before →
    ∀ h₁ c₁, Outstanding before h₁ c₁ → h₁ ≠ h₂ ∧ ∀ i ∈ c₁, i ∉ c₂

theorem Exclusive.cons_completed (hx : Exclusive log) (heads : List Nat) :
    Exclusive (.completed heads :: log) := by
  intro later h₂ c₂ before hlog
  cases later with
  | nil => cases hlog
  | cons e later => exact hx later h₂ c₂ before (List.cons.inj hlog).2

theorem Exclusive.cons_published (hx : Exclusive log)
    (hnew : ∀ h₁ c₁, Outstanding log h₁ c₁ → h₁ ≠ h₂ ∧ ∀ i ∈ c₁, i ∉ c₂) :
    Exclusive (.published h₂ c₂ :: log) := by
  intro later h c before hlog
  cases later with
  | nil =>
    obtain ⟨heq, rfl⟩ := List.cons.inj hlog
    injection heq with hh hc
    exact hh ▸ hc ▸ hnew
  | cons e later => exact hx later h c before (List.cons.inj hlog).2

/-- The log says which chains are in flight. -/
structure Tracked (s : Sys) (log : List Event) (chains : List (List Nat)) : Prop where
  flying : ∀ h c, Outstanding log h c ↔ Flying s.blk chains h c
  exclusive : Exclusive log

namespace Tracked

variable {s s' : Sys} {a : Act} {log : List Event} {free c : List Nat}
  {chains chains' : List (List Nat)} {h : Nat}

variable (k : Tracked s log chains)

include k

theorem quiet (he : s.event a s' = none)
    (hf : ∀ h c, Flying s'.blk chains' h c ↔ Flying s.blk chains h c) :
    Tracked s' ((s.event a s').toList ++ log) chains' := by
  rw [he]
  exact ⟨fun h c => (k.flying h c).trans (hf h c).symm, k.exclusive⟩

theorem published (hfr : ∀ i ∈ h :: c, ∀ c' ∈ chains, i ∉ c')
    (hq : s'.blk.queue.inFlight = update s.blk.queue.inFlight h true) :
    Tracked s' (.published h (h :: c) :: log) ((h :: c) :: chains) := by
  have hnew : ∀ h' c', c' ∈ chains → c'.head? = some h' → h' ≠ h ∧ ∀ i ∈ c', i ∉ h :: c := by
    intro h' c' hmem hh
    have hd : ∀ i ∈ c', i ∉ h :: c := fun i hi hi' => hfr i hi' c' hmem hi
    refine ⟨?_, hd⟩
    rintro rfl
    exact hd h' (List.mem_of_mem_head? hh) List.mem_cons_self
  refine ⟨fun h' c' => ?_, k.exclusive.cons_published fun h' c' hout => ?_⟩
  · rw [outstanding_published, k.flying]
    constructor
    · rintro (⟨rfl, rfl⟩ | ⟨hf, hmem, hh⟩)
      · exact ⟨by rw [hq, update_self], List.mem_cons_self, rfl⟩
      · refine ⟨?_, List.mem_cons_of_mem _ hmem, hh⟩
        rw [hq, update_of_ne (hnew h' c' hmem hh).1]
        exact hf
    · rintro ⟨hf, hmem, hh⟩
      rcases List.mem_cons.mp hmem with rfl | hmem
      · exact .inl ⟨(Option.some.inj hh).symm, rfl⟩
      · rw [hq, update_of_ne (hnew h' c' hmem hh).1] at hf
        exact .inr ⟨hf, hmem, hh⟩
  · obtain ⟨-, hmem, hh⟩ := (k.flying h' c').mp hout
    exact hnew h' c' hmem hh

theorem completed {d : DeviceInput} {n : Nat} {taken : List Nat}
    (hh : Handled d n s.blk chains taken s'.blk chains') :
    Tracked s' (.completed taken :: log) chains' where
  flying h c := by rw [outstanding_completed, k.flying, flying_of_handled hh]
  exclusive := k.exclusive.cons_completed taken

theorem change (i : Inv s free chains)
    (c : Change s chains a s' chains') : Tracked s' ((s.event a s').toList ++ log) chains' := by
  have hs : ∀ h c, Flying s.blk chains h c ↔ Flying s.blk chains h c := fun _ _ => .rfl
  cases c with
  | ticked | called | reserved | unreserved | dropped | dma => exact k.quiet rfl hs
  | refused hc => exact k.quiet (by simp [Sys.event, Sys.setCall, hc]) hs
  | @submitted t deadline h r c q hc _ hf hq hch =>
    have he : s.event (.advance t)
        ({ s with blk := s.blk.record q h r }.setCall t (.poll r h deadline)) =
        some (.published h (h :: c)) := by
      simp [Sys.event, Sys.setCall, hc, Blk.record, hch]
    rw [he]
    exact k.published hf hq
  | waited hc =>
    refine k.quiet ?_ hs
    rcases hc with ⟨hc, -⟩ | ⟨hc, -⟩ | ⟨hc, -⟩ <;> simp [Sys.event, hc]
  | polled hc | expired hc | timedOut hc => exact k.quiet (by simp [Sys.event, hc]) hs
  | finished hc _ hsl hd hq hp =>
    exact k.quiet (by simp [Sys.event, hc]) fun _ _ => i.flying_of_done hsl hd hq hp
  | droppedDone _ hsl hd hq hp => exact k.quiet rfl fun _ _ => i.flying_of_done hsl hd hq hp
  | @handled d taken blk' _ hha hh =>
    have he : s.event (.interrupt d) { s with blk := blk' } = some (.completed taken) := by
      simp [Sys.event, hha]
    rw [he]
    exact k.completed hh

end Tracked

theorem tracked_of_run {metaPhys dataPhys : Nat} {bounce : Nat → Bytes} {as : List Act}
    (hrun : Run (Logged Sys.Step Sys.event) (.boot metaPhys dataPhys bounce, []) as (s, log)) :
    ∃ free chains, Inv s free chains ∧ Tracked s log chains := by
  refine hrun.invariant (p := fun p => ∃ free chains, Inv p.1 free chains ∧ Tracked p.1 p.2 chains)
    ?_ ⟨_, [], .boot metaPhys dataPhys bounce, ?_⟩
  · rintro p a q ⟨free, chains, i, k⟩ ⟨hst, hlog⟩
    obtain ⟨free', chains', c, i'⟩ := i.step hst
    exact ⟨free', chains', i', hlog ▸ k.change i c⟩
  · refine ⟨fun h c => ?_, fun later _ _ _ hlog => by cases later <;> cases hlog⟩
    simp [Flying, not_outstanding_nil]

/-- Two stretches of memory have a byte in common. -/
def Overlap (start₁ len₁ start₂ len₂ : Nat) : Prop :=
  ∃ a, start₁ ≤ a ∧ a < start₁ + len₁ ∧ start₂ ≤ a ∧ a < start₂ + len₂

/-- Two requests have a descriptor, or a byte of their header areas or bounce
buffers, in common. -/
def Blk.Share (blk : Blk) (h₁ : Nat) (c₁ : List Nat) (h₂ : Nat) (c₂ : List Nat) : Prop :=
  (∃ i ∈ c₁, i ∈ c₂) ∨ Overlap (blk.headerPhys h₁) metaStride (blk.headerPhys h₂) metaStride ∨
    Overlap (blk.bouncePhys h₁) slotBytes (blk.bouncePhys h₂) slotBytes

/-- Areas of one length, side by side, overlap only in themselves. -/
theorem eq_of_overlap {base n : Nat} (h : Overlap (base + h₁ * n) n (base + h₂ * n) n) :
    h₁ = h₂ := by
  obtain ⟨a, hlo₁, hhi₁, hlo₂, hhi₂⟩ := h
  have hpos : 0 < n := by omega
  have hdiv : ∀ k, base + k * n ≤ a → a < base + k * n + n → (a - base) / n = k := by
    intro k hlo hhi
    rw [Nat.div_eq_iff hpos]
    omega
  rw [← hdiv h₁ hlo₁ hhi₁, hdiv h₂ hlo₂ hhi₂]

/-- In any interleaving and whatever the device writes, the descriptors, the
header area and the bounce buffer of a published chain go to another request only
after `take_used` has returned its head since; so two requests of which the first
is still outstanding share none of them. -/
theorem reused_after_completion {metaPhys dataPhys : Nat} {bounce : Nat → Bytes} {as : List Act}
    {s : Sys} {log later mid before : List Event} {h₁ h₂ : Nat} {c₁ c₂ : List Nat}
    (hrun : Run (Logged Sys.Step Sys.event) (.boot metaPhys dataPhys bounce, []) as (s, log))
    (hlog : log = later ++ .published h₂ c₂ :: (mid ++ .published h₁ c₁ :: before)) :
    (s.blk.Share h₁ c₁ h₂ c₂ → ∃ heads, .completed heads ∈ mid ∧ h₁ ∈ heads) ∧
      ((∀ heads, .completed heads ∈ later ++ .published h₂ c₂ :: mid → h₁ ∉ heads) →
        ¬ s.blk.Share h₁ c₁ h₂ c₂) := by
  obtain ⟨free, chains, -, k⟩ := tracked_of_run hrun
  have hmid : (∀ heads, .completed heads ∈ mid → h₁ ∉ heads) → ¬ s.blk.Share h₁ c₁ h₂ c₂ := by
    intro hmid
    obtain ⟨hne, hdisjoint⟩ :=
      k.exclusive later h₂ c₂ _ hlog h₁ c₁ ⟨mid, ⟨before, rfl⟩, hmid⟩
    rintro (⟨i, hi₁, hi₂⟩ | hoverlap | hoverlap)
    · exact hdisjoint i hi₁ hi₂
    · exact hne (eq_of_overlap hoverlap)
    · exact hne (eq_of_overlap hoverlap)
  constructor
  · intro hshare
    by_contra hnone
    exact hmid (fun heads hmem hh => hnone ⟨heads, hmem, hh⟩) hshare
  · intro hlater
    exact hmid fun heads hmem => hlater heads (by simp [hmem])

/-- A read of one sector. -/
def Request.readSector : Request := { lba := 0, len := 512, out := none }

/-- The device has completed the chain of one head, with a status byte. -/
def DeviceInput.one (idx : UInt16) (head : UInt8) (status : UInt8) : DeviceInput where
  idx := idx
  entries := fun _ i => if i.val = 0 then head else 0
  status := fun _ => status

/-- A request completes and its descriptors go to the next one. -/
theorem reused_after_completion_second_request :
    ∃ p : Sys × List Event,
      Run (Logged Sys.Step Sys.event) (.boot 0 0 fun _ => [], [])
        [.call 0 .readSector, .reserve 0 true, .advance 0, .interrupt (.one 1 0 0), .advance 0,
          .advance 0, .call 0 .readSector, .reserve 0 true, .advance 0] p ∧
      p.2 = [.published 2 [2, 1, 0], .completed [0], .published 0 [0, 1, 2]] ∧
      ∃ heads, Event.completed heads ∈ [Event.completed [0]] ∧ 0 ∈ heads := by
  refine exists_run (fun _ _ _ => logged_of_logging) (by decide +kernel)
    fun p hrun hlog => ⟨hlog, ?_⟩
  have hshape : p.2 = [] ++ .published 2 [2, 1, 0] ::
      ([.completed [0]] ++ .published 0 [0, 1, 2] :: []) := hlog
  exact (reused_after_completion hrun hshape).1 (.inl ⟨0, by decide, by decide⟩)

end Qunix.Block
