/-
What is on the disk after a `sync`.

A block that was written before a `sync` began, and not since, is in no dirty slot
once the `sync` has returned `Ok` (`Synced`), so the disk holds its last write, and
nothing the device performs later changes that: where the writes of a block are
submitted in order. Otherwise a write that timed out is performed after the newer
one that took its place (`late_write_overwrites`).
-/

import Qunix.Storage.Simulation

namespace Qunix.Storage

open Function Qunix.Lib
open Qunix.BufferCache (Bytes BlockError BlockKey SyncCall blockBytes)
open Qunix.Block (Request queueSize)

variable {N : Nat}

/-- What a log says of the dirty blocks of the cache it led to. -/
structure Synced (s : BufferCache.Sys N) (log : List (BufferCache.Event N)) : Prop where
  latest : ∀ k x later, Since (.stored k x) later log → (∀ y, .stored k y ∉ later) →
    s.lastWrite k = some x
  calls : ∀ t y o, (s.tasks t).call = some (y, o) → y.Owing o
  /-- The mask of a `sync` has the blocks that were written before it began. -/
  owed : ∀ t y o, (s.tasks t).call = some (y, o) → ∀ k x later, Since (.stored k x) later log →
    (∀ z, .stored k z ∉ later) → .syncBegan t ∈ later → ∀ i, s.Dirty i k → y.owed i = true
  clean : ∀ t k x later l₁ l₂ l₃, Since (.stored k x) later log → (∀ z, .stored k z ∉ later) →
    later = l₁ ++ .syncOk t :: (l₂ ++ .syncBegan t :: l₃) → ∀ i, ¬ s.Dirty i k

namespace Synced

theorem boot (disk : Nat → Bytes) : Synced (BufferCache.Sys.boot N disk) [] where
  latest _ _ _ hsi := absurd hsi not_since_nil
  calls _ _ _ hc := nomatch hc
  owed _ _ _ hc := nomatch hc
  clean _ _ _ _ _ _ _ hsi := absurd hsi not_since_nil

section Step

variable {s s' : BufferCache.Sys N} {a : BufferCache.Act N} {log later : List (BufferCache.Event N)}
  {k : BlockKey} {x : Bytes} {i : Fin N}

/-- A block that is not written in a step was as dirty before. -/
theorem dirty_before (h : BufferCache.Inv s) (hs : s.step a = some s')
    {l : List (BufferCache.Event N)}
    (hn : ∀ z, .stored k z ∉ (s.event a s').toList ++ l) (hd : s'.Dirty i k) : s.Dirty i k := by
  rcases h.dirty_new hs hd with hd | ⟨-, z, he⟩
  · exact hd
  · exact absurd (by simp [he]) (hn z)

section

variable (y : Synced s log)

include y

section

variable (h : BufferCache.Inv s) (hs : s.step a = some s')

include h hs

theorem latest_step
    (hsi : Since (.stored k x) later ((s.event a s').toList ++ log))
    (hn : ∀ z, .stored k z ∉ later) : s'.lastWrite k = some x := by
  have hc := h.change hs
  rcases since_toList_append.mp hsi with ⟨rfl, he⟩ | ⟨l, rfl, hp⟩
  · rw [(hc.acknowledged_of_event h he).lastWrite, update_self]
  · have hl := y.latest k x l hp fun z hz => hn z (List.mem_append_right _ hz)
    rcases hc.acknowledged h with ⟨hsa, -⟩ | ⟨k', x', he, hack⟩
    · rw [hsa, hl]
    · have hne : k ≠ k' := by
        rintro rfl
        exact hn x' (by simp [he])
      rw [hack.lastWrite, update_of_ne hne, hl]

theorem owed_step {t : Nat}
    {c : SyncCall N} {o : Option (Fin N)} (hc : (s'.tasks t).call = some (c, o))
    (hsi : Since (.stored k x) later ((s.event a s').toList ++ log))
    (hn : ∀ z, .stored k z ∉ later) (hb : .syncBegan t ∈ later) (hd : s'.Dirty i k) :
    c.owed i = true := by
  rcases since_toList_append.mp hsi with ⟨rfl, -⟩ | ⟨l, rfl, hp⟩
  · cases hb
  · have hd := dirty_before h hs hn hd
    rcases BufferCache.Sys.call_step hs hc with
      ⟨c₀, o₀, hcall₀, hk⟩ | ⟨-, -, b, hca, -, hm, -⟩
    · rw [(hk (y.calls t c₀ o₀ hcall₀)).1]
      refine y.owed t c₀ o₀ hcall₀ k x l hp (fun z hz => hn z (List.mem_append_right _ hz))
        ?_ i hd
      rcases List.mem_append.mp hb with hnow | hb
      · rw [BufferCache.Sys.tasks_of_syncBegan hs (by simpa using hnow)] at hc
        cases hc
      · exact hb
    · rw [hm]
      exact BufferCache.Sys.unsyncedMask_of_dirty hca hd

theorem clean_step {t : Nat}
    {l₁ l₂ l₃ : List (BufferCache.Event N)}
    (hsi : Since (.stored k x) later ((s.event a s').toList ++ log))
    (hn : ∀ z, .stored k z ∉ later)
    (hsy : later = l₁ ++ .syncOk t :: (l₂ ++ .syncBegan t :: l₃)) : ¬ s'.Dirty i k := by
  intro hd
  rcases since_toList_append.mp hsi with ⟨rfl, -⟩ | ⟨l, rfl, hp⟩
  · simp at hsy
  · have hd := dirty_before h hs hn hd
    have hn' : ∀ z, .stored k z ∉ l := fun z hz => hn z (List.mem_append_right _ hz)
    cases he : s.event a s' with
    | none =>
      rw [he] at hsy
      exact y.clean t k x l l₁ l₂ l₃ hp hn' hsy i hd
    | some e =>
      rw [he] at hsy
      cases l₁ with
      | nil =>
        obtain ⟨rfl, rfl⟩ := List.cons.inj hsy
        obtain ⟨c, hca, hc⟩ := BufferCache.Sys.clean_of_syncOk y.calls hs he
        exact hc i k (y.owed t c none hca k x _ hp hn' (by simp) i hd) hd
      | cons e' l₁ => exact y.clean t k x l l₁ l₂ l₃ hp hn' (List.cons.inj hsy).2 i hd

theorem step :
    Synced s' ((s.event a s').toList ++ log) where
  latest _ _ _ := y.latest_step h hs
  calls _ _ _ := BufferCache.Sys.owing_step y.calls hs
  owed _ _ _ hc _ _ _ hsi hn hb _ := y.owed_step h hs hc hsi hn hb
  clean _ _ _ _ _ _ _ hsi hn hsy _ := y.clean_step h hs hsi hn hsy

end

theorem still (hc : s'.cache = s.cache) (ht : s'.tasks = s.tasks)
    (hl : s'.lastWrite = s.lastWrite) : Synced s' log := by
  have hd : ∀ i k, s'.Dirty i k ↔ s.Dirty i k := fun i k => by
    simp [BufferCache.Sys.Dirty, hc]
  refine ⟨hl ▸ y.latest, ht ▸ y.calls, ?_, ?_⟩
  · simp only [ht, hd]
    exact y.owed
  · simp only [hd]
    exact y.clean

end

end Step

end Synced

/-- The disk holds the last write of a block that is not dirty. -/
theorem device_of_clean {s : BufferCache.Sys N} (h : BufferCache.Inv s) {k : BlockKey} {x : Bytes}
    (hla : s.lastWrite k = some x) (hcl : ∀ i, ¬ s.Dirty i k) : s.device k.lba = x := by
  cases hc : s.cache with
  | none => exact nomatch ((h.fresh hc).2.2 k).symm.trans hla
  | some b =>
    have hli := (h.ready b hc).lines
    by_cases hline : ∃ i, (b.line i).key? = some k
    · obtain ⟨i, hi⟩ := hline
      have hf := hli.fits i
      cases hl : b.line i with
      | empty =>
        rw [hl] at hi
        cases hi
      | pending k' =>
        rw [hl] at hi hf
        cases hi
        exact hf x hla
      | clean k' z =>
        rw [hl] at hi hf
        cases hi
        exact hf.2 x hla
      | dirty k' z =>
        rw [hl] at hi
        cases hi
        exact absurd ⟨b, z, hc, hl⟩ (hcl i)
    · exact hli.absent k (fun i hi => hline ⟨i, hi⟩) x hla

/-- In every run in which a write of a block is submitted only when every write of
the block published before was performed: once a `sync` has returned `Ok`, and
from then on, the disk holds the last acknowledged write of every block that was
written before the `sync` began and not since. -/
theorem synced_block_stays {disk : Nat → Bytes} (hdisk : ∀ lba, (disk lba).length = blockBytes)
    {metaPhys dataPhys : Nat} {bounce : Nat → Bytes} {as : List (Act N)} {m : Machine N}
    {log later before l₁ l₂ l₃ : List (BufferCache.Event N)} {t : Nat} {k : BlockKey} {x : Bytes}
    (hrun : Run (fun p a q => Logged Machine.Step Machine.event p a q ∧ p.1.writesInOrder a = true)
      (.boot N disk metaPhys dataPhys bounce, []) as (m, log))
    (hlog : log = later ++ .stored k x :: before) (hlast : ∀ y, .stored k y ∉ later)
    (hsync : later = l₁ ++ .syncOk t :: (l₂ ++ .syncBegan t :: l₃)) :
    m.cache.device k.lba = x := by
  obtain ⟨c, y⟩ := hrun.invariant (p := fun p => Coupled p.1 ∧ Synced p.1.cache p.2)
    (by
      rintro p a q ⟨c, y⟩ ⟨⟨hstep, hevent⟩, hguard⟩
      obtain ⟨c', hsim⟩ := c.step hstep hguard
      refine ⟨c', hevent ▸ ?_⟩
      cases hsim with
      | step hs he => exact he ▸ y.step c.cache hs
      | still hcache htasks hlast he => exact he ▸ y.still hcache htasks hlast)
    ⟨.boot hdisk metaPhys dataPhys bounce, .boot disk⟩
  exact device_of_clean c.cache (y.latest k x later ⟨before, hlog⟩ hlast)
    (y.clean t k x later l₁ l₂ l₃ ⟨before, hlog⟩ hlast hsync)

/-- A write of a block that is published and times out, then a newer write of the
block and a `sync` that returns `Ok`. The device performs the older request where
`early` says so, before the newer one is submitted. -/
def supersede (early : List (Act 1)) : List (Act 1) :=
  List.flatten [[.cache (.init fun _ => []), .cache (.writeBlock 0 ⟨0, 5⟩ (List.replicate 4096 7)),
      .cache (.advance 0), .cache (.sync 1), .cache (.advance 1), .cache (.advance 1),
      .cache (.advance 1), .cache (.advance 1), .driver (.reserve 1 true), .driver (.advance 1),
      .driver (.advance 1)],
    List.replicate Block.requestTimeoutTicks (.cache .tick),
    [.driver (.advance 1), .driver (.advance 1), .resume 1, .cache (.advance 1),
      .cache (.advance 1),
      .cache (.writeBlock 0 ⟨0, 5⟩ (List.replicate 4096 8)), .cache (.advance 0), .cache (.sync 2),
      .cache (.advance 2), .cache (.advance 2), .cache (.advance 2), .cache (.advance 2),
      .driver (.reserve 2 true)],
    early,
    [.driver (.advance 2), .perform 3, .driver (.interrupt (.one 1 3 0)), .driver (.advance 2),
      .driver (.advance 2), .resume 2, .cache (.advance 2), .cache (.advance 2)]]

/-- The bytes of the newer write, from the log of `supersede`. -/
def newer : List (BufferCache.Event 1) → Option Bytes
  | [.syncOk 2, .wroteBack 2 _, .wrote _ _, .owed 2 _, .syncBegan 2, .stored ⟨0, 5⟩ x,
      .owed 1 _, .syncBegan 1, .stored _ _] => some x
  | _ => none

/-- The older write is performed before the newer one is submitted. -/
theorem synced_block_stays_early_write :
    ∃ p : Machine 1 × List (BufferCache.Event 1),
      Run (fun p a q => Logged Machine.Step Machine.event p a q ∧ p.1.writesInOrder a = true)
        (.boot 1 (fun _ => List.replicate 4096 0) 0 0 fun _ => [], []) (supersede [.perform 0]) p ∧
      ∃ x before l₂, p.2 = ([] ++ .syncOk 2 :: (l₂ ++ .syncBegan 2 :: [])) ++
          .stored ⟨0, 5⟩ x :: before ∧ p.1.cache.device 40 = x := by
  refine exists_run (fun _ _ _ => logged_of_guarded)
    (f := guarded (fun p a => p.1.writesInOrder a) (logging Machine.step Machine.event))
    (p := fun p => (newer p.2).isSome = true)
    (by decide +kernel) fun p hrun hend => ?_
  obtain ⟨m, log⟩ := p
  simp only [newer] at hend
  split at hend
  · rename_i slot k bytes mask x mask' k' x'
    refine ⟨x, _, [.wroteBack 2 slot, .wrote k bytes, .owed 2 mask], rfl, ?_⟩
    have hshape : (_ : List (BufferCache.Event 1)) =
      ([] ++ .syncOk 2 :: ([.wroteBack 2 slot, .wrote k bytes, .owed 2 mask] ++
        .syncBegan 2 :: [])) ++
          .stored ⟨0, 5⟩ x :: [.owed 1 mask', .syncBegan 1, .stored k' x'] := rfl
    exact synced_block_stays (fun _ => List.length_replicate) hrun hshape (by simp) rfl
  · cases hend

/-- The older write is performed after the `sync` has returned `Ok`: the disk holds
its bytes, and not those of the last acknowledged write. -/
theorem late_write_overwrites :
    ∃ p : Machine 1 × List (BufferCache.Event 1),
      Run (Logged Machine.Step Machine.event)
        (.boot 1 (fun _ => List.replicate 4096 0) 0 0 fun _ => [], [])
        (supersede [] ++ [.perform 0]) p ∧
      ∃ x before l₂, p.2 = ([] ++ .syncOk 2 :: (l₂ ++ .syncBegan 2 :: [])) ++
          .stored ⟨0, 5⟩ x :: before ∧ (∀ y, .stored ⟨0, 5⟩ y ∉ l₂) ∧ p.1.cache.device 40 ≠ x := by
  refine exists_run (fun _ _ _ => logged_of_logging)
    (p := fun p : Machine 1 × List (BufferCache.Event 1) =>
      (newer p.2).any (·.head? == some 8) = true ∧ (p.1.cache.device 40).head? = some 7)
    (by decide +kernel) fun p hrun hend => ?_
  obtain ⟨m, log⟩ := p
  simp only [newer] at hend
  split at hend
  · refine ⟨_, _, [_, _, _], rfl, by simp, ?_⟩
    intro heq
    rw [show m.cache.device 40 = _ from heq] at hend
    exact absurd (hend.2.symm.trans (beq_iff_eq.mp hend.1)) (by decide)
  · cases hend.1

/-- What the cache assumes of the driver holds of the driver over the disk: where writes of a
block are submitted in order, every live reference shows the last acknowledged write of its
block, or the disk's bytes. -/
theorem refs_show_over_driver {disk : Nat → Bytes} (hdisk : ∀ lba, (disk lba).length = blockBytes)
    {metaPhys dataPhys : Nat} {bounce : Nat → Bytes} {as : List (Act N)} {m : Machine N}
    (hrun : Run (fun m a m' => Machine.Step m a m' ∧ m.writesInOrder a = true)
      (.boot N disk metaPhys dataPhys bounce) as m) :
    ∀ r ∈ m.cache.refs,
      m.cache.shows r = some ((m.cache.lastWrite r.key).getD (m.cache.device r.key.lba)) := by
  have c : Coupled m := hrun.invariant (fun _ _ _ c hst => (c.step hst.1 hst.2).1)
    (.boot hdisk metaPhys dataPhys bounce)
  exact fun r hr => c.cache.shows_eq hr

/-- The block is read after the older and the newer write. -/
theorem refs_show_over_driver_reread :
    ∃ m : Machine 1, Run (fun m a m' => Machine.Step m a m' ∧ m.writesInOrder a = true)
        (.boot 1 (fun _ => List.replicate 4096 0) 0 0 fun _ => [])
        (supersede [.perform 0] ++ [.cache (.readBlock 3 ⟨0, 5⟩), .cache (.advance 3)]) m ∧
      ⟨0, ⟨0, 5⟩⟩ ∈ m.cache.refs ∧ m.cache.shows ⟨0, ⟨0, 5⟩⟩ =
        some ((m.cache.lastWrite ⟨0, 5⟩).getD (m.cache.device 40)) :=
  exists_run_of_exec_guarded (by decide +kernel) fun _ hrun hr =>
    ⟨hr, refs_show_over_driver (fun _ => List.length_replicate) hrun _ hr⟩

end Qunix.Storage
