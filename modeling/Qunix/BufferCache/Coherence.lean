/-
Readers see the last acknowledged write.

Every step keeps the cache coherent with its device (`Inv`), whatever requests
fail and whatever futures are dropped, so in every run each live reference shows
the current contents of its block (`refs_show_contents`).
-/

import Qunix.BufferCache.Changes

namespace Qunix.BufferCache

open Function Qunix.Lib

variable {N : Nat}

namespace Inv

variable {s s' : Sys N} {t : Nat} {task : Task N} {b : Bcache N} {a : Act N}

theorem boot (device : Nat → Bytes) : Inv (Sys.boot N device) where
  ready := nofun
  fresh := fun _ => ⟨fun _ => rfl, rfl, fun _ => rfl⟩

theorem quiet (h : Inv s) (hq : Quiet s s') : Inv s' where
  ready := by
    intro b hb
    rw [hq.device, hq.lastWrite, hq.hold, hq.refs]
    exact h.ready b (hq.cache ▸ hb)
  fresh := by
    intro hn
    obtain ⟨hold, hr, hl⟩ := h.fresh (hq.cache ▸ hn)
    exact ⟨fun t => (congrFun hq.hold t).trans (hold t), hq.refs ▸ hr, hq.lastWrite ▸ hl⟩

theorem of_coherent (hc : s.cache = some b)
    (h : Coherent b s.device s.lastWrite (update (Task.hold ∘ s.tasks) t task.hold) s.refs) :
    Inv (s.setTask t task) where
  ready := by
    intro b' hb'
    obtain rfl := Option.mem_unique hc hb'
    change Coherent b s.device s.lastWrite (Task.hold ∘ update s.tasks t task) s.refs
    rw [comp_update]
    exact h
  fresh := fun hn => nomatch hc.symm.trans hn

theorem move_coherent (hc : s.cache = some b) (hold : (s.tasks t).hold = none)
    (ht : task.hold = none)
    (h : Coherent b s.device s.lastWrite (Task.hold ∘ s.tasks) s.refs) :
    Inv (s.setTask t task) := by
  have hs : update (Task.hold ∘ s.tasks) t task.hold = Task.hold ∘ s.tasks := by
    rw [update_eq_self_iff]
    exact ht.trans hold.symm
  refine of_coherent hc ?_
  rw [hs]
  exact h

variable (h : Inv s)

include h

theorem init (hc : s.cache = none) (frames : Fin N → Bytes) :
    Inv (s.setCache (Bcache.new frames)) := by
  obtain ⟨hn, hre, hla⟩ := h.fresh hc
  refine ⟨fun b hb => ?_, nofun⟩
  cases hb
  have hl : ∀ i, (Bcache.new frames).line i = .empty := fun _ => rfl
  refine ⟨⟨fun i j k hi => ?_, fun i => ?_, fun k _ x hx => ?_⟩, fun i => ?_, fun k hk => ?_,
    ⟨fun t g hg => ?_, fun t u g g' hg => ?_⟩, ⟨fun r hr => ?_, fun i => ?_⟩⟩
  · cases hi
  · trivial
  · exact nomatch (hla k).symm.trans hx
  · exact ⟨rfl, fun hne => absurd rfl hne, fun _ => rfl, nofun⟩
  · exact absurd (hla k) hk
  · exact nomatch (hn t).symm.trans hg
  · exact nomatch (hn t).symm.trans hg
  · rw [show (s.setCache (Bcache.new frames)).refs = [] from hre] at hr
    cases hr
  · rw [show (s.setCache (Bcache.new frames)).refs = [] from hre]
    rfl

variable {c : WriteCall} {b' : Bcache N} {slot : Fin N} {f : Flusher N} {w : Writeback N}
  {bytes : Bytes}

section

variable (hc : s.cache = some b)

include hc

/-- The bytes of a write that returns go into the block's own slot. -/
theorem stored (ht : s.tasks t = .store c) (hf : b.table.lookup c.key = some slot)
    (hio : (b.table.slots slot).state ≠ .inFlight) (hp : (b.table.slots slot).pins = 0)
    (hb : b.Becomes slot { b.table.slots slot with state := .dirty } c.data (b.filling slot) b') :
    Inv ({ s.setCache b' with
      lastWrite := update s.lastWrite c.key (some c.data) }.finish t (.ok ())) := by
  have hco := h.ready b hc
  obtain ⟨hs, hkey⟩ := Cache.lookup_eq_some hf
  have hl : (b.line slot).key? = some c.key := key?_line_eq_some.mpr ⟨hs, hkey⟩
  refine move_coherent rfl (congrArg Task.hold ht) rfl (hco.stored c.valid ?_
    (fun j hj => hco.lines.unique j slot _ hj hl)
    (fun k hk => Option.mem_unique hk hl) hio hp hb)
  simp [hkey, hp, (hco.sound slot).quiet]

theorem storedNew {b₁ : Bcache N} (ht : s.tasks t = .store c) (hfr : b.Freed b₁)
    (ha : b₁.table.lookup c.key = none) (hf : (b₁.table.slots slot).state = .free)
    (hb : b₁.Becomes slot { Bcache.claimed c.key with state := .dirty } c.data
      (b₁.filling slot) b') :
    Inv ({ s.setCache b' with
      lastWrite := update s.lastWrite c.key (some c.data) }.finish t (.ok ())) := by
  have hco := (h.ready b hc).freed hfr
  refine move_coherent rfl (congrArg Task.hold ht) rfl (hco.stored c.valid rfl
    (fun j hj => absurd hj (key?_line_of_lookup_eq_none ha j)) (fun k hk => ?_)
    (by simp [hf]) ((hco.sound slot).unread hf) hb)
  rw [line_of_free hf] at hk
  cases hk

/-- The device answers a write, and holds its bytes or anything. -/
theorem answered (ht : s.tasks t = .writing f w bytes) (outcome : Except BlockError Unit)
    (junk : Bytes) :
    Inv (Sys.setTask { s with
      device := update s.device w.key.lba (if outcome.toBool then bytes else junk) } t
      (.written f w outcome)) := by
  have hco := h.ready b hc
  have hm : (Task.hold ∘ s.tasks) t = some ⟨w.token.slot, w.key, .submitted bytes⟩ :=
    congrArg Task.hold ht
  refine of_coherent hc (hco.answered hm _ ?_)
  cases outcome with
  | ok u => exact ⟨rfl, (update_self ..).trans (hco.guards.slot_of_hold hm).2.2⟩
  | error e => rfl

/-- The future of a writeback is dropped: the slot is dirty again, and the device
holds anything. -/
theorem droppedWriteback {junk : Bytes} (ht : s.tasks t = .writing f w bytes)
    (hb : b.Becomes w.token.slot { b.table.slots w.token.slot with state := .dirty }
      (b.frames w.token.slot) (b.filling w.token.slot) b') :
    Inv ({ s.setCache b' with device := update s.device w.key.lba junk }.setTask t .idle) := by
  have hm : (Task.hold ∘ s.tasks) t = some ⟨w.token.slot, w.key, .submitted bytes⟩ :=
    congrArg Task.hold ht
  have ha : Coherent b (update s.device w.key.lba junk) s.lastWrite
      (update (Task.hold ∘ s.tasks) t (some ⟨w.token.slot, w.key, .writing⟩)) s.refs :=
    (h.ready b hc).answered hm junk rfl
  have hk := ha.kept (update_self ..) hb
  rw [update_idem] at hk
  exact of_coherent rfl hk

end

theorem of_change (hc : Change s a s') : Inv s' := by
  cases hc with
  | quiet hq => exact h.quiet hq
  | init hno => exact h.init hno _
  | refused hca hf hold ht =>
    exact move_coherent rfl hold ht ((h.ready _ hca).freed hf)
  | hit hca ht hfo hre hb =>
    exact move_coherent rfl (congrArg Task.hold ht) rfl
      ((h.ready _ hca).hit hfo hre hb)
  | @claimed t c _ _ _ _ hca ht hf ha hfr hb =>
    exact of_coherent rfl (((h.ready _ hca).freed hf).claimed c.valid ha hfr hb)
  | @arrived t c _ token outcome junk hca ht =>
    refine of_coherent rfl ((h.ready _ hca).arrived (congrArg Task.hold ht)
      (Bcache.becomes_frame ..) ?_)
    cases outcome with
    | ok u => exact ⟨rfl, rfl⟩
    | error e => rfl
  | finished hca ht hb =>
    exact of_coherent rfl ((h.ready _ hca).finished (congrArg Task.hold ht) hb)
  | failed hca ht hb | droppedFill hca ht hb =>
    exact of_coherent rfl ((h.ready _ hca).abandoned (congrArg Task.hold ht) hb)
  | stored hca ht hfo hio hp hb => exact h.stored hca ht hfo hio hp hb
  | storedNew hca ht hf ha hfr hb =>
    exact h.storedNew hca ht hf ha hfr hb
  | begun hca _ hd hb => exact of_coherent rfl ((h.ready _ hca).begun hd hb)
  | submitted hca ht =>
    exact of_coherent hca ((h.ready _ hca).submitted (congrArg Task.hold ht))
  | answered hca ht => exact h.answered hca ht _ _
  | cleaned hca ht hb hn =>
    refine of_coherent rfl ?_
    rw [hn]
    exact (h.ready _ hca).cleaned (congrArg Task.hold ht) hb
  | kept hca ht hb hn =>
    refine of_coherent rfl ?_
    rw [hn]
    exact (h.ready _ hca).kept (congrArg Task.hold ht) hb
  | droppedWriteback hca ht hb => exact h.droppedWriteback hca ht hb
  | unpinned hca hr hb =>
    refine ⟨fun b₁ hb₁ => ?_, nofun⟩
    cases hb₁
    exact (h.ready _ hca).unpinned hr hb

theorem step (hs : s.step a = some s') : Inv s' := h.of_change (h.change hs)

omit h in
theorem of_run {device : Nat → Bytes} {as : List (Act N)}
    (hrun : Run Sys.Step (Sys.boot N device) as s) : Inv s :=
  hrun.invariant (fun _ _ _ h hs => h.step hs) (boot device)

/-- A live reference shows the current contents of its block. -/
theorem shows_eq {r : BlockRef N} (hr : r ∈ s.refs) :
    s.shows r = some (s.contents r.key) := by
  cases hc : s.cache with
  | none =>
    rw [(h.fresh hc).2.1] at hr
    cases hr
  | some b =>
    have hco := h.ready b hc
    rw [Sys.shows, hc, Option.map_some, hco.lines.answer (hco.pins.live r hr)]
    rfl

end Inv

/-- Whatever the interleaving of sections and completions, the failures and the
dropped futures, every live reference shows the bytes of the last write of its
block that returned `Ok`, or the device's if there was none. -/
theorem refs_show_contents {device : Nat → Bytes} {as : List (Act N)} {s : Sys N}
    (hrun : Run Sys.Step (Sys.boot N device) as s) :
    ∀ r ∈ s.refs, s.shows r = some ((s.lastWrite r.key).getD (s.device r.key.lba)) := by
  exact fun r hr => (Inv.of_run hrun).shows_eq hr

/-- The writeback that an eviction started fails and leaves junk on the device,
while another thread was handed the block: that reference shows the written
bytes. -/
theorem refs_show_contents_failed_flush :
    ∃ s : Sys 1, Run Sys.Step (Sys.boot 1 fun _ => [0])
      [.init fun _ => [], .writeBlock 0 ⟨0, 5⟩ (List.replicate 4096 7), .advance 0,
        .readBlock 1 ⟨0, 9⟩, .advance 1, .advance 1, .advance 1, .advance 1,
        .readBlock 2 ⟨0, 5⟩, .advance 2, .complete 1 (.error .timeout) [1, 2, 3], .advance 1] s ∧
      ⟨0, ⟨0, 5⟩⟩ ∈ s.refs ∧ s.device 40 = [1, 2, 3] ∧
      (s.lastWrite ⟨0, 5⟩).map (·.take 2) = some [7, 7] ∧
      s.shows ⟨0, ⟨0, 5⟩⟩ = some ((s.lastWrite ⟨0, 5⟩).getD [1, 2, 3]) := by
  refine exists_run_of_exec (by decide +kernel) fun s hrun hfacts =>
    and_assoc.mp (and_assoc.mp ⟨hfacts, ?_⟩)
  obtain ⟨⟨hr, hdevice⟩, -⟩ := hfacts
  have hshows := refs_show_contents hrun ⟨0, ⟨0, 5⟩⟩ hr
  rw [show (⟨0, 5⟩ : BlockKey).lba = 40 from rfl, hdevice] at hshows
  exact hshows

end Qunix.BufferCache
