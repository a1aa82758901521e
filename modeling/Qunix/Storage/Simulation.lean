/-
Every step of the cache, the driver and the disk together keeps the coupling, and
is a step of the cache's machine or changes at most a block of the disk
(`Coupled.step`).
-/

import Qunix.Storage.Coupling

namespace Qunix.Storage

open Function Qunix.Lib
open Qunix.BufferCache (Bytes BlockError BlockKey Hold blockBytes)
open Qunix.Block (Request RequestHeader DeviceInput queueSize)
open Qunix.Virtio (UsedElem)

variable {N : Nat}

/-- What a step of the whole is to the cache's machine. -/
inductive Sim (m : Machine N) (a : Act N) (m' : Machine N) : Prop where
  | step {ca : BufferCache.Act N} : m.cache.step ca = some m'.cache →
      m.event a m' = m.cache.event ca m'.cache → Sim m a m'
  | still : m'.cache.cache = m.cache.cache → m'.cache.tasks = m.cache.tasks →
      m'.cache.lastWrite = m.cache.lastWrite → m.event a m' = none → Sim m a m'

theorem Machine.waiting_iff {m : Machine N} {h : Nat} :
    m.waiting h = true ↔ m.driver.blk.queue.inFlight h = true ∧ m.served h = none := by
  simp [Machine.waiting]

namespace Coupled

variable {m m' : Machine N} {t : Nat}

/-! ### The cache -/

variable {a : BufferCache.Act N} {s' : BufferCache.Sys N} {d' : Block.Sys}

/-- The guards of a task are dropped without a touch of the disk. -/
theorem drop_spec (hio : (request? (m.cache.tasks t)).isSome)
    (hs : m.cache.step (.drop t (m.untouched t)) = some s') :
    s'.device = m.cache.device ∧
      (s'.tasks = m.cache.tasks ∨ s'.tasks = update m.cache.tasks t .idle) := by
  obtain ⟨-, hs⟩ := Option.ite_none_left_eq_some.mp hs
  cases ht : m.cache.tasks t with
  | fill call token =>
    cases hc : m.cache.cache with
    | none => simp [BufferCache.Sys.drop, ht, hc] at hs
    | some b =>
      simp only [BufferCache.Sys.drop, ht, hc] at hs
      split at hs
      · cases hs
        exact ⟨rfl, .inl rfl⟩
      · cases hs
        exact ⟨rfl, .inr rfl⟩
  | writing f w bytes =>
    cases hc : m.cache.cache with
    | none => simp [BufferCache.Sys.drop, ht, hc] at hs
    | some b =>
      simp only [BufferCache.Sys.drop, ht, hc] at hs
      split at hs
      · cases hs
        exact ⟨rfl, .inl rfl⟩
      · cases hs
        refine ⟨?_, .inr rfl⟩
        change update m.cache.device w.key.lba (m.untouched t) = m.cache.device
        simp [Machine.untouched, ht]
  | _ => simp [ht, request?] at hio

section

variable (c : Coupled m)

include c

/-- A section of the cache, with the call it makes in the driver. -/
theorem own (hs : m.cache.step a = some s') (hc : ∀ t outcome junk, a ≠ .complete t outcome junk)
    (hd : ∀ t junk, a = .drop t junk → (m.cache.tasks t).awaitsDevice = false)
    (hinv : ∃ free chains, Block.Inv d' free chains) (hblk : d'.blk = m.driver.blk)
    (hca : ∀ u, d'.calls u = m.driver.calls u ∧ (a = .advance u → request? (s'.tasks u) = none) ∨
      ∃ r, d'.calls u = .reserve r ∧ request? (s'.tasks u) = some r) :
    Coupled { m with cache := s', driver := d' } := by
  have haw : ∀ u, _ := fun u => BufferCache.Sys.awaits_step hs (hc u) (hd u)
  refine c.of_cache hs (device_of_step c.cache hs hc hd) hinv hblk
    (fun u => (hca u).imp_left And.left) (fun u r hr => ?_) (fun u r hr => ?_)
    fun k bytes he => ?_
  · rcases hca u with ⟨hsa, hn⟩ | ⟨r', hnew, hr'⟩
    · rcases (haw u).2 (awaits_of_request? hr) with ht | ha
      · exact .inr ⟨ht, hsa⟩
      · exact nomatch (hn ha).symm.trans hr
    · exact .inl (Option.mem_unique hr' hr ▸ hnew)
  · exact (haw u).1 (awaits_of_request? (c.linked u r hr))
  · obtain ⟨t, junk, f, w, rfl, -⟩ := event_eq_wrote he
    exact absurd rfl (hc t _ junk)

theorem cache_step (hs : m.cacheStep a = some m') :
    Coupled m' ∧ Sim m (.cache a) m' := by
  obtain ⟨free, chains, i⟩ := c.driver
  -- An action that makes no call in the driver.
  have hp : ∀ {s' : BufferCache.Sys N}, m.cache.step a = some s' →
      (∀ t outcome junk, a ≠ .complete t outcome junk) →
      (∀ t junk, a = .drop t junk → (m.cache.tasks t).awaitsDevice = false) →
      (∀ u, a = .advance u → request? (s'.tasks u) = none) →
      Coupled { m with cache := s' } ∧ Sim m (.cache a) { m with cache := s' } :=
    fun hs hco hd hn =>
      ⟨c.own hs hco hd c.driver rfl fun u => .inl ⟨rfl, hn u⟩, .step hs rfl⟩
  unfold Machine.cacheStep at hs
  split at hs
  · cases hs
  · split at hs
    · cases hs
    · rename_i t junk hi
      obtain ⟨s', hs', rfl⟩ := Option.map_eq_some_iff.mp hs
      refine hp hs' nofun (fun u junk' hu => ?_) nofun
      injection hu with htu
      rw [isSome_request?] at hi
      exact htu ▸ by simpa using hi
  · obtain ⟨s', hs', hs⟩ := Option.bind_eq_some_iff.mp hs
    obtain ⟨d', hd', hs⟩ := Option.bind_eq_some_iff.mp hs
    cases hs
    obtain ⟨free', chains', hc, i'⟩ := i.step hd'
    cases hc with
    | ticked =>
      exact ⟨c.own hs' nofun nofun ⟨_, _, i'⟩ rfl fun u => .inl ⟨rfl, nofun⟩,
        .step hs' rfl⟩
  · rename_i t
    obtain ⟨s', hs', hs⟩ := Option.bind_eq_some_iff.mp hs
    split at hs
    · rename_i hn
      cases hs
      refine hp hs' nofun nofun fun u hu => ?_
      injection hu with htu
      exact htu ▸ hn
    · rename_i r hr
      obtain ⟨d', hd', hs⟩ := Option.bind_eq_some_iff.mp hs
      cases hs
      obtain ⟨free', chains', hc, i'⟩ := i.step hd'
      cases hc with
      | called =>
        refine ⟨c.own hs' nofun nofun ⟨_, _, i'⟩ rfl fun u => ?_, .step hs' rfl⟩
        by_cases hut : u = t
        · subst hut
          exact .inr ⟨r, update_self .., hr⟩
        · refine .inl ⟨update_of_ne hut .., fun hu => ?_⟩
          injection hu with htu
          exact absurd htu.symm hut
  · rename_i hco hd _ ha
    obtain ⟨s', hs', rfl⟩ := Option.map_eq_some_iff.mp hs
    exact hp hs' (fun t o j h => hco t o j h) (fun t j h => absurd h (hd t j))
      fun u h => absurd h (ha u)

/-! ### The driver -/

theorem subside (hinv : ∃ free chains, Block.Inv d' free chains) (hs : Block.Subsides m.driver d')
    (hd : ∀ t copied, d'.calls t = .done (.ok ()) copied →
      m.driver.calls t = .done (.ok ()) copied ∨ m.driver.Finishing t copied) :
    Coupled { m with driver := d' } :=
  c.of_driver hinv (c.sent.subside hs) hs.header hs.bounce hs.flight hs.sent hs.request hd

/-- When the guard lets a write be submitted, none of its block waits. -/
theorem not_waits_of_writesInOrder {r : Request} {deadline : Nat}
    (hc : m.driver.calls t = .submit r deadline)
    (hg : m.writesInOrder (.driver (.advance t)) = true) (hso : r.out.isSome) (h : Nat) :
    ¬ m.Waits h r.lba := by
  rintro ⟨hfly, hs, hh⟩
  obtain ⟨free, chains, i⟩ := c.driver
  obtain ⟨sl, hsl⟩ := i.owned.live h hfly
  simp only [Machine.writesInOrder, hc, Option.isNone_eq_false_iff.mpr hso, Bool.false_or,
    List.all_eq_true, List.mem_range] at hg
  have := hg h (i.owned.lt_of_slot hsl)
  simp [Machine.waiting, hfly, hs, hh] at this

theorem driver_step {a : Block.Act} (hs : m.driverStep a = some m')
    (hg : m.writesInOrder (.driver a) = true) : Coupled m' ∧ Sim m (.driver a) m' := by
  obtain ⟨free, chains, i⟩ := c.driver
  suffices hm : Coupled m' ∧ m'.cache = m.cache from
    ⟨hm.1, .still (by rw [hm.2]) (by rw [hm.2]) (by rw [hm.2]) rfl⟩
  unfold Machine.driverStep at hs
  split at hs
  · rename_i t room
    obtain ⟨d', hd', rfl⟩ := Option.map_eq_some_iff.mp hs
    obtain ⟨free', chains', hc, i'⟩ := i.step hd'
    refine ⟨?_, rfl⟩
    cases hc.effect (.inl ⟨t, room, rfl⟩) with
    | subsided hsub hdo => exact c.subside ⟨free', chains', i'⟩ hsub hdo
    | published ha => cases ha
  · rename_i t
    obtain ⟨d', hd', rfl⟩ := Option.map_eq_some_iff.mp hs
    obtain ⟨free', chains', hc, i'⟩ := i.step hd'
    refine ⟨?_, rfl⟩
    cases hc.effect (.inr (.inl ⟨t, rfl⟩)) with
    | subsided hsub hdo he =>
      split
      · rename_i h c heq
        exact absurd heq (he h c)
      · exact c.subside ⟨free', chains', i'⟩ hsub hdo
    | published ha hca hsl hq hd he =>
      obtain rfl := Block.Act.advance.inj ha
      simp only [he]
      subst hd
      exact c.published ⟨free', chains', i'⟩ hca hsl hq
        (c.not_waits_of_writesInOrder hca hg)
  · split_ifs at hs with hho
    obtain ⟨d', hd', rfl⟩ := Option.map_eq_some_iff.mp hs
    obtain ⟨free', chains', hc, i'⟩ := i.step hd'
    refine ⟨?_, rfl⟩
    cases hc with
    | handled _ hh =>
      obtain ⟨hhe, hb, hf, -⟩ := hh.spec
      refine c.of_driver ⟨free', _, i'⟩ (c.sent.handled hh fun j hj hfly => ?_) hhe hb
        hf (fun _ _ _ => id) (fun _ _ => id) fun _ _ => .inl
      simp only [Machine.honest, List.all_eq_true, List.mem_range] at hho
      simpa [hfly] using hho j hj
  all_goals cases hs

/-! ### Calls that end -/

/-- An answer comes back to the cache as its machine assumes it. -/
theorem resume_step (hs : m.resume t = some m') :
    Coupled m' ∧ Sim m (.resume t) m' := by
  unfold Machine.resume at hs
  split_ifs at hs with hru
  suffices hm : ∃ result copied junk, m.driver.calls t = .done result copied ∧
      m'.driver = m.driver ∧ m'.served = m.served ∧ m'.cache.device = m.cache.device ∧
      (∀ u, u ≠ t → m'.cache.tasks u = m.cache.tasks u) ∧
      request? (m'.cache.tasks t) = none ∧
      m.cache.step (.complete t result junk) = some m'.cache by
    obtain ⟨result, copied, junk, hd, hdr, hse, hde, ho, hn, hst⟩ := hm
    have hm' : m' = { m with cache := m'.cache, driver := m.driver } := by
      rw [← hdr, ← hse]
    refine ⟨?_, .step hst ?_⟩
    · rw [hm']
      refine c.of_cache hst hde c.driver rfl (fun _ => .inl rfl) (fun u r hr => ?_)
        (fun u r hr => ?_) fun k bytes he => ?_
      · refine .inr ⟨ho u ?_, rfl⟩
        rintro rfl
        exact nomatch hn.symm.trans hr
      · refine ho u ?_
        rintro rfl
        rw [hd] at hr
        cases hr
      · obtain ⟨u, junk', f, w, hact, ht, rfl⟩ := event_eq_wrote he
        injection hact with hut hre
        subst hut hre
        have hf := c.fulfilled t _ copied (by rw [ht]; rfl) hd
        exact hf.1
    · simp only [Machine.event, hd]
      cases result <;> rfl
  split at hs
  · rename_i call token b result copied ht hc hd
    cases hs
    refine ⟨result, copied, copied.getD (b.frames token.slot), hd, rfl, rfl, rfl,
      fun u hu => update_of_ne hu .., ?_, ?_⟩
    · change request? (update m.cache.tasks t _ t) = none
      rw [update_self]
      rfl
    · simp only [BufferCache.Sys.step, if_neg hru, BufferCache.Sys.complete, ht, hc]
      cases result with
      | error e => rfl
      | ok v =>
        have hf := c.fulfilled t _ copied (by rw [ht]; rfl) hd
        simp only [Machine.Fulfilled] at hf
        simp [hf]
  · rename_i f w bytes b result copied ht hc hd
    cases hs
    refine ⟨result, copied, m.cache.device w.key.lba, hd, rfl, rfl, rfl,
      fun u hu => update_of_ne hu .., ?_, ?_⟩
    · change request? (update m.cache.tasks t _ t) = none
      rw [update_self]
      rfl
    · simp only [BufferCache.Sys.step, if_neg hru, BufferCache.Sys.complete, ht]
      cases result with
      | error e => simp [Except.toBool]
      | ok v =>
        have hf := c.fulfilled t _ copied (by rw [ht]; rfl) hd
        simp [← hf.2]
  · cases hs

theorem drop_step (hs : m.drop t = some m') : Coupled m' ∧ Sim m (.drop t) m' := by
  unfold Machine.drop at hs
  split_ifs at hs with hio
  obtain ⟨d', hd', hs⟩ := Option.bind_eq_some_iff.mp hs
  obtain ⟨s', hs', hs⟩ := Option.bind_eq_some_iff.mp hs
  cases hs
  obtain ⟨free, chains, i⟩ := c.driver
  obtain ⟨free', chains', hc, i'⟩ := i.step hd'
  refine ⟨?_, .step hs' rfl⟩
  have hi : (d'.calls t).request? = none := by
    cases hc with
    | droppedDone | dropped =>
      change (update m.driver.calls t .idle t).request? = none
      rw [update_self]
      rfl
  cases hc.effect (.inr (.inr ⟨t, rfl⟩)) with
  | published ha => cases ha
  | subsided hsub hdo =>
    have c' := c.subside ⟨free', chains', i'⟩ hsub hdo
    obtain ⟨hd, ht⟩ := drop_spec hio hs'
    have ho : ∀ u, u ≠ t → s'.tasks u = m.cache.tasks u := by
      intro u hut
      rcases ht with hsa | hi
      · rw [hsa]
      · rw [hi, update_of_ne hut]
    refine c'.of_cache hs' hd c'.driver rfl (fun _ => .inl rfl) (fun u r hr => ?_)
      (fun u r hr => ho u ?_) fun k bytes he => ?_
    · refine .inr ⟨?_, rfl⟩
      rcases ht with hsa | hi
      · rw [hsa]
      · refine ho u ?_
        rintro rfl
        rw [hi, update_self] at hr
        cases hr
    · rintro rfl
      exact nomatch hi.symm.trans hr
    · obtain ⟨_, _, _, _, hact, -⟩ := event_eq_wrote he
      cases hact

/-! ### The device -/

theorem transfer_step {a : Act N} {h : Nat} {status : UInt8} {bytes : Bytes}
    (hwa : m.waiting h = true) (he : ∀ m', m.event a m' = none)
    (ha : status = 0 → bytes = m.asked h) (hlen : status ≠ 0 → bytes.length = blockBytes) :
    Coupled (m.transfer h status bytes) ∧ Sim m a (m.transfer h status bytes) := by
  obtain ⟨hfly, hs⟩ := Machine.waiting_iff.mp hwa
  obtain ⟨kind, lba, hh⟩ : ∃ kind lba, m.driver.blk.header h = ⟨kind, lba⟩ := ⟨_, _, rfl⟩
  unfold Machine.transfer
  simp only [Machine.asked, hh] at ha ⊢
  cases kind with
  | write =>
    have hw : m.Waits h lba := ⟨hfly, hs, hh⟩
    refine ⟨c.wrote hw ?_ ha, .still rfl rfl rfl (he _)⟩
    by_cases hz : status = 0
    · rw [ha hz]
      exact c.load h lba hw
    · exact hlen hz
  | read => exact ⟨c.read hs hh ha, .still rfl rfl rfl (he _)⟩

/-- Where writes of a block are submitted in order, every step of the whole keeps
the coupling, and is a step of the cache's machine or changes at most the disk. -/
theorem step {a : Act N} (hs : m.Step a m') (hg : m.writesInOrder a = true) :
    Coupled m' ∧ Sim m a m' := by
  unfold Machine.Step Machine.step at hs
  split at hs
  · exact c.cache_step hs
  · exact c.driver_step hs hg
  · exact c.resume_step hs
  · exact c.drop_step hs
  · split_ifs at hs with hw
    cases hs
    exact c.transfer_step hw (fun _ => rfl) (fun _ => rfl) fun h => absurd rfl h
  · split_ifs at hs with hf
    obtain ⟨hw, hst, hlen⟩ := hf
    cases hs
    exact c.transfer_step hw (fun _ => rfl) (fun h => absurd h hst) fun _ => hlen

end

theorem boot {disk : Nat → Bytes} (hd : ∀ lba, (disk lba).length = blockBytes)
    (metaPhys dataPhys : Nat) (bounce : Nat → Bytes) :
    Coupled (Machine.boot N disk metaPhys dataPhys bounce) where
  cache := .boot disk
  driver := ⟨_, _, .boot metaPhys dataPhys bounce⟩
  sent := ⟨nofun, nofun, nofun, nofun⟩
  linked := nofun
  disk := hd
  sized := nofun
  load _ _ hw := nomatch hw.1
  clear _ _ hw := nomatch hw.1
  pending := nofun
  fulfilled := nofun

end Coupled

end Qunix.Storage
