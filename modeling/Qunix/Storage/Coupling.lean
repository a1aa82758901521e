/-
The invariant of the cache, the driver and the disk together.

Where a write is submitted only after the writes of its block before it were
performed, at most one write of a block waits for the device, and it is of a
block that is dirty in the cache. So the device performs a write under a dirty
line only, and the answer a call brings back is the one the cache's machine
assumes of it: every step of the whole is a step of the cache's machine, or
leaves it alone but for a block under a dirty line (`Coupled.step`).
-/

import Qunix.BufferCache.Durability
import Qunix.Storage.Requests

namespace Qunix.Storage

open Function Qunix.Lib
open Qunix.BufferCache (Bytes BlockError BlockKey Hold blockBytes)
open Qunix.Block (Request RequestHeader DeviceInput queueSize)
open Qunix.Virtio (UsedElem)

variable {N : Nat}

/-! ### Tasks that await the device -/

theorem isSome_request? (task : BufferCache.Task N) :
    (request? task).isSome = task.awaitsDevice := by
  cases task <;> rfl

theorem awaits_of_request? {task : BufferCache.Task N} {r : Request} (hr : request? task = some r) :
    task.awaitsDevice = true := by
  rw [← isSome_request?, hr]
  rfl

section Tasks

variable {s : BufferCache.Sys N} {t u : Nat} {r r' : Request} {k : BlockKey} {i : Fin N}
  {g g' : Hold N}

theorem cache_of_hold (h : BufferCache.Inv s) (hg : (s.tasks t).hold = some g) :
    ∃ b, s.cache = some b := by
  cases hc : s.cache with
  | none => exact nomatch ((h.fresh hc).1 t).symm.trans hg
  | some b => exact ⟨b, rfl⟩

theorem hold_of_request? (hr : request? (s.tasks t) = some r) :
    ∃ g, (s.tasks t).hold = some g ∧ g.key.lba = r.lba ∧
      g.stage = (match r.out with | some bytes => .submitted bytes | none => .filling) := by
  cases ht : s.tasks t with
  | fill c token | writing f w bytes =>
    rw [ht] at hr
    cases hr
    exact ⟨_, rfl, rfl, rfl⟩
  | _ =>
    rw [ht] at hr
    cases hr

section

variable (h : BufferCache.Inv s)

include h

theorem key?_of_hold (hg : (s.tasks t).hold = some g) :
    ∃ b, s.cache = some b ∧ (b.line g.slot).key? = some g.key ∧ g.key.Valid := by
  obtain ⟨b, hc⟩ := cache_of_hold h hg
  have hco := h.ready b hc
  have hkey := (hco.guards.held t g hg).2.key?
  exact ⟨b, hc, hkey, hco.valid_of_live (.inl ⟨_, hkey⟩)⟩

theorem eq_of_key_eq (hg : (s.tasks t).hold = some g)
    (hg' : (s.tasks u).hold = some g') (hkey : g.key = g'.key) : t = u := by
  obtain ⟨b, hc, hl, -⟩ := key?_of_hold h hg
  obtain ⟨b', hc', hl', -⟩ := key?_of_hold h hg'
  obtain rfl := Option.mem_unique hc hc'
  have hco := h.ready b hc
  exact hco.guards.single t u g g' hg hg' (hco.lines.unique _ _ _ (hkey ▸ hl) hl')

theorem eq_of_lba_eq (hr : request? (s.tasks t) = some r)
    (hr' : request? (s.tasks u) = some r') (hlba : r.lba = r'.lba) : t = u := by
  obtain ⟨g, hg, hgl, -⟩ := hold_of_request? hr
  obtain ⟨g', hg', hgl', -⟩ := hold_of_request? hr'
  obtain ⟨-, -, -, hv⟩ := key?_of_hold h hg
  obtain ⟨-, -, -, hv'⟩ := key?_of_hold h hg'
  exact eq_of_key_eq h hg hg' (BlockKey.lba_inj hv hv' (by rw [hgl, hgl', hlba]))

theorem valid_of_dirty (hd : s.Dirty i k) : k.Valid := by
  obtain ⟨b, x, hc, hl⟩ := hd
  exact (h.ready b hc).valid_of_live (.inl ⟨i, by rw [hl]; rfl⟩)

end

variable {bytes : Bytes} {s' : BufferCache.Sys N} {a : BufferCache.Act N}

theorem dirty_of_write (h : BufferCache.Inv s) (hr : request? (s.tasks t) = some r)
    (hout : r.out = some bytes) : ∃ g, (s.tasks t).hold = some g ∧ g.key.lba = r.lba ∧
      g.stage = .submitted bytes ∧ s.Dirty g.slot g.key ∧ s.lastWrite g.key = some bytes := by
  obtain ⟨g, hg, hlba, hs⟩ := hold_of_request? hr
  rw [hout] at hs
  obtain ⟨b, hc⟩ := cache_of_hold h hg
  have hco := h.ready b hc
  have hf := (hco.guards.held t g hg).2
  rw [hs] at hf
  obtain ⟨hl, hfr⟩ := hf
  have hla := hco.lines.fits g.slot
  rw [hl] at hla
  exact ⟨g, hg, hlba, hs, ⟨b, _, hc, hl⟩, hfr ▸ hla⟩

theorem not_dirty_of_read (h : BufferCache.Inv s) (hr : request? (s.tasks t) = some r)
    (hout : r.out = none) (hd : s.Dirty i k) : k.lba ≠ r.lba := by
  intro hlba
  obtain ⟨g, hg, hgl, hs⟩ := hold_of_request? hr
  rw [hout] at hs
  obtain ⟨b, hc, hkey, hv⟩ := key?_of_hold h hg
  obtain ⟨x, hl⟩ := (BufferCache.Sys.dirty_iff hc).mp hd
  have hco := h.ready b hc
  have hf := (hco.guards.held t g hg).2
  rw [hs] at hf
  obtain rfl : k = g.key := BlockKey.lba_inj (valid_of_dirty h hd) hv (hlba.trans hgl.symm)
  obtain rfl := hco.lines.unique i g.slot g.key (by rw [hl]; rfl) hkey
  exact nomatch hl.symm.trans hf

theorem event_eq_wrote (h : s.event a s' = some (.wrote k bytes)) :
    ∃ t junk f w, a = .complete t (.ok ()) junk ∧ s.tasks t = .writing f w bytes ∧ w.key = k := by
  cases BufferCache.Sys.shows_of_event h with
  | wrote ht => exact ⟨_, _, _, _, rfl, ht, rfl⟩

/-- Only a completion, and the drop of a writeback, reach the device. -/
theorem device_of_step (h : BufferCache.Inv s) (hs : s.step a = some s')
    (hc : ∀ t outcome junk, a ≠ .complete t outcome junk)
    (hd : ∀ t junk, a = .drop t junk → (s.tasks t).awaitsDevice = false) :
    s'.device = s.device := by
  cases h.change hs with
  | quiet hq => exact hq.device
  | answered => exact absurd rfl (hc _ _ _)
  | droppedWriteback _ ht =>
    have := hd _ _ rfl
    rw [ht] at this
    cases this
  | _ => rfl

end Tasks

/-! ### The invariant -/

namespace Machine

/-- A write of the block at `lba` waits for the device. -/
def Waits (m : Machine N) (head lba : Nat) : Prop :=
  m.driver.blk.queue.inFlight head = true ∧ m.served head = none ∧
    m.driver.blk.header head = ⟨.write, lba⟩

/-- A request that was published: no other write of its block waits, and once it
was performed, the disk and the bounce buffer hold its bytes. -/
def Pending (m : Machine N) (r : Request) (head : Nat) : Prop :=
  match r.out with
  | some bytes => (∀ h, m.Waits h r.lba → h = head) ∧
      (m.served head = some 0 → m.cache.device r.lba = bytes)
  | none => m.served head = some 0 →
      (m.driver.blk.bounce head).take blockBytes = m.cache.device r.lba

/-- A request that succeeded, and what it copied. -/
def Fulfilled (m : Machine N) (r : Request) (copied : Option Bytes) : Prop :=
  match r.out with
  | some bytes => (∀ h, ¬ m.Waits h r.lba) ∧ m.cache.device r.lba = bytes
  | none => copied = some (m.cache.device r.lba)

variable {m m' : Machine N} {r : Request}

theorem Waits.of_served {h h' lba : Nat} {status : UInt8}
    (hs : m'.served = update m.served h (some status))
    (hqu : m'.driver.blk.queue = m.driver.blk.queue)
    (hhe : m'.driver.blk.header = m.driver.blk.header) (hw : m'.Waits h' lba) :
    m.Waits h' lba := by
  obtain ⟨hfly, hn, hh⟩ := hw
  refine ⟨hqu ▸ hfly, ?_, hhe ▸ hh⟩
  rw [hs] at hn
  by_cases hne : h' = h
  · simp [hne] at hn
  · rwa [update_of_ne hne] at hn

theorem Pending.mono {head : Nat} (hp : m.Pending r head)
    (hw : ∀ h, m'.Waits h r.lba → m.Waits h r.lba) (hs : m'.served head = m.served head)
    (hd : m'.cache.device r.lba = m.cache.device r.lba)
    (hb : m'.driver.blk.bounce head = m.driver.blk.bounce head) : m'.Pending r head := by
  unfold Pending at hp ⊢
  rw [hs, hd, hb]
  split at hp
  · exact ⟨fun h hh => hp.1 h (hw h hh), hp.2⟩
  · exact hp

theorem Fulfilled.mono {copied : Option Bytes} (hf : m.Fulfilled r copied)
    (hw : ∀ h, m'.Waits h r.lba → m.Waits h r.lba)
    (hd : m'.cache.device r.lba = m.cache.device r.lba) : m'.Fulfilled r copied := by
  unfold Fulfilled at hf ⊢
  rw [hd]
  split at hf
  · exact ⟨fun h hh => hf.1 h (hw h hh), hf.2⟩
  · exact hf

end Machine

/-- The machine once a request of thread `t` was published under `head`. -/
def Machine.publish (m : Machine N) (q : Virtio.SplitQueue) (t : Nat) (r : Request)
    (head deadline : Nat) : Machine N :=
  { m with
    driver := { m.driver with blk := m.driver.blk.record q head r }.setCall t
      (.poll r head deadline)
    served := update m.served head none }

structure Coupled (m : Machine N) : Prop where
  cache : BufferCache.Inv m.cache
  driver : ∃ free chains, Block.Inv m.driver free chains
  sent : Block.Sent m.driver m.served
  linked : ∀ t r, (m.driver.calls t).request? = some r → request? (m.cache.tasks t) = some r
  disk : ∀ lba, (m.cache.device lba).length = blockBytes
  sized : ∀ k x, m.cache.lastWrite k = some x → x.length = blockBytes
  load : ∀ h lba, m.Waits h lba → ((m.driver.blk.bounce h).take blockBytes).length = blockBytes
  /-- A write that waits is of a dirty block, whose writeback was not told that
  it succeeded. -/
  clear : ∀ h lba, m.Waits h lba → ∃ k i, k.lba = lba ∧ m.cache.Dirty i k ∧
    ∀ u g, (m.cache.tasks u).hold = some g → g.stage = .written → g.key ≠ k
  pending : ∀ t r h, request? (m.cache.tasks t) = some r →
    (m.driver.calls t).sent? = some (r, h) → m.Pending r h
  fulfilled : ∀ t r copied, request? (m.cache.tasks t) = some r →
    m.driver.calls t = .done (.ok ()) copied → m.Fulfilled r copied

namespace Coupled

variable {m : Machine N}

/-! ### Steps of the cache -/

variable {t h lba : Nat} {r : Request} {a : BufferCache.Act N} {s' : BufferCache.Sys N}
  {d' : Block.Sys} {status : UInt8} {bytes : Bytes}

/-- The new call of a task that comes to await the driver is for one block. -/
theorem whole_of_request? {s : BufferCache.Sys N} (h : BufferCache.Inv s)
    (hs : ∀ k x, s.lastWrite k = some x → x.length = blockBytes)
    (hr : request? (s.tasks t) = some r) : r.Whole where
  len := by
    cases ht : s.tasks t <;> rw [ht] at hr <;> cases hr <;> rfl
  data bytes hout := by
    obtain ⟨g, -, -, -, -, hl⟩ := dirty_of_write h hr hout
    exact hs g.key bytes hl

theorem sized_step (c : Coupled m) (hs : m.cache.step a = some s') (k : BlockKey) (x : Bytes)
    (hx : s'.lastWrite k = some x) :
    x.length = blockBytes := by
  rcases (c.cache.change hs).acknowledged c.cache with ⟨hsa, -⟩ | ⟨k', x', he, hack⟩
  · exact c.sized k x (hsa ▸ hx)
  · rw [hack.lastWrite] at hx
    rw [update_apply] at hx
    split_ifs at hx with hk
    · obtain ⟨t, call, -, -, -, -, rfl⟩ := BufferCache.Sys.event_eq_stored he
      exact Option.some.inj hx ▸ call.whole
    · exact c.sized k x hx

/-- The cache takes a step that leaves the disk alone, and the driver's calls stay
but for new ones. -/
theorem of_cache (c : Coupled m) (hs : m.cache.step a = some s')
    (hde : s'.device = m.cache.device) (hinv : ∃ free chains, Block.Inv d' free chains)
    (hblk : d'.blk = m.driver.blk)
    (hc : ∀ u, d'.calls u = m.driver.calls u ∨
      ∃ r, d'.calls u = .reserve r ∧ request? (s'.tasks u) = some r)
    (hta : ∀ u r, request? (s'.tasks u) = some r → d'.calls u = .reserve r ∨
      s'.tasks u = m.cache.tasks u ∧ d'.calls u = m.driver.calls u)
    (hl : ∀ u r, (m.driver.calls u).request? = some r → s'.tasks u = m.cache.tasks u)
    (hwr : ∀ k bytes, m.cache.event a s' = some (.wrote k bytes) → ∀ h, ¬ m.Waits h k.lba) :
    Coupled { m with cache := s', driver := d' } := by
  have hwa : ∀ h lba, ({ m with cache := s', driver := d' } : Machine N).Waits h lba ↔
      m.Waits h lba := fun h lba => by simp [Machine.Waits, hblk]
  have hinv' := c.cache.step hs
  have hsi := c.sized_step hs
  refine ⟨hinv', hinv, ⟨fun u r hu => ?_, fun u r h hu => ?_, fun u r h bytes hu hout => ?_, ?_⟩,
    fun u r hu => ?_, ?_, hsi, fun h lba hw => ?_, fun h lba hw => ?_, fun u r h hr hu => ?_,
    fun u r copied hr hu => ?_⟩
  · rcases hc u with hsa | ⟨r', hnew, hr'⟩
    · exact c.sent.whole u r (hsa ▸ hu)
    · rw [hnew] at hu
      exact Option.some.inj hu ▸ whole_of_request? hinv' hsi hr'
  · rcases hc u with hsa | ⟨r', hnew, -⟩
    · rw [hblk]
      exact c.sent.header u r h (hsa ▸ hu)
    · simp [hnew, Block.Call.sent?] at hu
  · rcases hc u with hsa | ⟨r', hnew, -⟩
    · rw [hblk]
      exact c.sent.data u r h bytes (hsa ▸ hu) hout
    · simp [hnew, Block.Call.sent?] at hu
  · rw [hblk]
    exact c.sent.done
  · rcases hc u with hsa | ⟨r', hnew, hr'⟩
    · rw [hsa] at hu
      rw [hl u r hu]
      exact c.linked u r hu
    · rw [hnew] at hu
      exact Option.some.inj hu ▸ hr'
  · rw [hde]
    exact c.disk
  · rw [hwa] at hw
    rw [hblk]
    exact c.load h lba hw
  · rw [hwa] at hw
    obtain ⟨k, i, rfl, hd, hcl⟩ := c.clear h lba hw
    refine ⟨k, i, rfl, ?_, fun u g hg hst hkey => ?_⟩
    · rcases (c.cache.change hs).dirty c.cache hd with hd' | ⟨t, f, w, -, ht, -, rfl⟩
      · exact hd'
      · exact absurd rfl (hcl t _ (congrArg BufferCache.Task.hold ht) rfl)
    · rcases (c.cache.change hs).written c.cache hg hst with hold | ⟨bytes, he, -⟩
      · exact hcl u g hold hst hkey
      · exact hwr _ bytes he h (hkey ▸ hw)
  · rcases hta u r hr with hnew | ⟨ht, hsa⟩
    · simp [hnew, Block.Call.sent?] at hu
    · refine (c.pending u r h (ht ▸ hr) (hsa ▸ hu)).mono (fun h => (hwa h _).mp) rfl ?_ ?_
      · exact congrFun hde _
      · exact congrFun (congrArg Block.Blk.bounce hblk) h
  · rcases hta u r hr with hnew | ⟨ht, hsa⟩
    · simp [hnew] at hu
    · exact (c.fulfilled u r copied (ht ▸ hr) (hsa ▸ hu)).mono (fun h => (hwa h _).mp)
        (congrFun hde _)

/-! ### Steps of the driver -/

theorem of_driver (c : Coupled m) (hinv : ∃ free chains, Block.Inv d' free chains)
    (hsent : Block.Sent d' m.served) (hhe : d'.blk.header = m.driver.blk.header)
    (hb : d'.blk.bounce = m.driver.blk.bounce)
    (hf : ∀ h, d'.blk.queue.inFlight h = true → m.driver.blk.queue.inFlight h = true)
    (hca : ∀ t r h, (d'.calls t).sent? = some (r, h) → (m.driver.calls t).sent? = some (r, h))
    (hre : ∀ t r, (d'.calls t).request? = some r → (m.driver.calls t).request? = some r)
    (hd : ∀ t copied, d'.calls t = .done (.ok ()) copied →
      m.driver.calls t = .done (.ok ()) copied ∨ m.driver.Finishing t copied) :
    Coupled { m with driver := d' } := by
  have hwa : ∀ h lba, ({ m with driver := d' } : Machine N).Waits h lba → m.Waits h lba := by
    rintro h lba ⟨hfly, hse, hh⟩
    exact ⟨hf h hfly, hse, hhe ▸ hh⟩
  refine ⟨c.cache, hinv, hsent, fun t r hr => c.linked t r (hre t r hr), c.disk, c.sized,
    fun h lba hw => hb ▸ c.load h lba (hwa h lba hw),
    fun h lba hw => c.clear h lba (hwa h lba hw), fun t r h hr hs => ?_, fun t r copied hr hs => ?_⟩
  · exact (c.pending t r h hr (hca t r h hs)).mono (fun h => hwa h _) rfl rfl
      (congrFun hb h)
  · rcases hd t copied hs with hold | ⟨r', h, sl, hfi, hsl, hslot, hz, hc⟩
    · exact (c.fulfilled t r copied hr hold).mono (fun h => hwa h _) rfl
    · -- The request that ends is the one the task awaits, and it was performed.
      have hsent : (m.driver.calls t).sent? = some (r', h) := by rw [hfi]; rfl
      obtain rfl : r = r' := Option.some.inj
        (hr.symm.trans (c.linked t r' (Block.Call.request?_of_sent? hsent)))
      have hse : m.served h = some 0 := by rw [c.sent.done h sl hsl hslot, hz]
      have hp := c.pending t r h hr hsent
      unfold Machine.Pending at hp
      unfold Machine.Fulfilled
      cases hout : r.out with
      | some bytes =>
        rw [hout] at hp
        refine ⟨fun h' hw => ?_, hp.2 hse⟩
        have hw := hwa h' r.lba hw
        rw [hp.1 h' hw] at hw
        exact nomatch hse.symm.trans hw.2.1
      | none =>
        rw [hout] at hp
        have hlen := (c.sent.whole t r (Block.Call.request?_of_sent? hsent)).len
        rw [hc r.len (by simp [Block.Request.into, hout]), hlen]
        exact congrArg some (hp hse)

section Publish

variable {t deadline h : Nat} {r : Request} {q : Virtio.SplitQueue} {h' lba : Nat}

theorem waits_publish (hq : q.inFlight = update m.driver.blk.queue.inFlight h true)
    (hw : (m.publish q t r h deadline).Waits h' lba) :
    h' = h ∧ lba = r.lba ∧ r.out.isSome ∨ h' ≠ h ∧ m.Waits h' lba := by
  obtain ⟨hfly, hs, hh⟩ := hw
  change q.inFlight h' = true at hfly
  change update m.served h none h' = none at hs
  change update m.driver.blk.header h _ h' = _ at hh
  by_cases hne : h' = h
  · rw [hne, update_self] at hh
    injection hh with hk hlba
    refine .inl ⟨hne, hlba.symm, ?_⟩
    by_contra hn
    simp [hn] at hk
  · rw [hq, update_of_ne hne] at hfly
    rw [update_of_ne hne] at hs hh
    exact .inr ⟨hne, hfly, hs, hh⟩

variable (c : Coupled m) (hq : q.inFlight = update m.driver.blk.queue.inFlight h true)

include c hq

theorem load_publish (hwh : r.Whole) (hw : (m.publish q t r h deadline).Waits h' lba) :
    (((m.publish q t r h deadline).driver.blk.bounce h').take blockBytes).length = blockBytes := by
  change ((update m.driver.blk.bounce h _ h').take blockBytes).length = blockBytes
  rcases waits_publish hq hw with ⟨rfl, -, hs⟩ | ⟨hne, hw⟩
  · obtain ⟨bytes, hout⟩ := Option.isSome_iff_exists.mp hs
    simp [hout, hwh.data bytes hout]
  · rw [update_of_ne hne]
    exact c.load h' lba hw

variable (hr : request? (m.cache.tasks t) = some r)

include hr

theorem waits_other {u : Nat} {r' : Request} (hr' : request? (m.cache.tasks u) = some r')
    (hut : u ≠ t) (hw : (m.publish q t r h deadline).Waits h' r'.lba) :
    m.Waits h' r'.lba := by
  rcases waits_publish hq hw with ⟨-, hlba, -⟩ | ⟨-, hw⟩
  · exact absurd (eq_of_lba_eq c.cache hr' hr hlba) hut
  · exact hw

theorem clear_publish (hw : (m.publish q t r h deadline).Waits h' lba) :
    ∃ k i, k.lba = lba ∧ m.cache.Dirty i k ∧
      ∀ u g, (m.cache.tasks u).hold = some g → g.stage = .written → g.key ≠ k := by
  rcases waits_publish hq hw with ⟨-, rfl, hso⟩ | ⟨-, hw⟩
  · obtain ⟨bytes, hout⟩ := Option.isSome_iff_exists.mp hso
    obtain ⟨g, hg, hlba, hs, hd, -⟩ := dirty_of_write c.cache hr hout
    refine ⟨g.key, g.slot, hlba, hd, fun u g' hg' hwr hkey => ?_⟩
    obtain rfl := eq_of_key_eq c.cache hg' hg hkey
    obtain rfl := Option.mem_unique hg hg'
    exact nomatch hs.symm.trans hwr
  · exact c.clear h' lba hw

end Publish

variable (c : Coupled m)

include c

/-- A request is published; a write, only when none of its block waits. -/
theorem published {deadline : Nat} {q : Virtio.SplitQueue}
    (hinv : ∃ free chains, Block.Inv (m.publish q t r h deadline).driver free chains)
    (hc : m.driver.calls t = .submit r deadline) (hs : m.driver.blk.slots h = none)
    (hq : q.inFlight = update m.driver.blk.queue.inFlight h true)
    (hcl : r.out.isSome → ∀ h, ¬ m.Waits h r.lba) : Coupled (m.publish q t r h deadline) := by
  obtain ⟨free, chains, i⟩ := c.driver
  have hre : (m.driver.calls t).request? = some r := by rw [hc]; rfl
  have hr := c.linked t r hre
  refine ⟨c.cache, hinv, c.sent.published i.held hc hs, fun u r' hu => ?_, c.disk, c.sized,
    fun _ _ => c.load_publish hq (c.sent.whole t r hre), fun _ _ => c.clear_publish hq hr,
    fun u r' h' hr' hu => ?_, fun u r' copied hr' hu => ?_⟩
  · change (update m.driver.calls t _ u).request? = _ at hu
    rw [update_apply] at hu
    split_ifs at hu with hut
    · cases hu
      rw [hut]
      exact hr
    · exact c.linked u r' hu
  · change (update m.driver.calls t _ u).sent? = _ at hu
    rw [update_apply] at hu
    split_ifs at hu with hut
    · cases hu
      -- The new request was not performed, and no other write of its block waits.
      have hs : (m.publish q t r h deadline).served h = none := update_self ..
      unfold Machine.Pending
      cases hout : r.out with
      | none => simp [hs]
      | some bytes =>
        refine ⟨fun h' hw => ?_, by simp [hs]⟩
        rcases waits_publish hq hw with ⟨hh, -⟩ | ⟨-, hw⟩
        · exact hh
        · exact absurd hw (hcl (by simp [hout]) h')
    · have hne : h' ≠ h := by
        rintro rfl
        obtain ⟨sl, hsl, -⟩ := i.held.owner u h' (Block.Call.head?_of_sent? hu)
        exact nomatch hs.symm.trans hsl
      exact (c.pending u r' h' hr' hu).mono (fun _ => c.waits_other hq hr hr' hut)
        (update_of_ne hne ..) rfl (update_of_ne hne ..)
  · change update m.driver.calls t _ u = _ at hu
    rw [update_apply] at hu
    split_ifs at hu with hut
    exact (c.fulfilled u r' copied hr' hu).mono (fun _ => c.waits_other hq hr hr' hut) rfl

/-! ### Steps of the device -/

/-- The block of a write that waits may change under the cache. -/
theorem scribbled (hw : m.Waits h lba) (bytes : Bytes) :
    BufferCache.Inv { m.cache with device := update m.cache.device lba bytes } := by
  obtain ⟨k, i, rfl, ⟨b, x, hc, hl⟩, hcl⟩ := c.clear h lba hw
  refine ⟨fun b' hb' => ?_, fun hn => nomatch hc.symm.trans hn⟩
  obtain rfl := Option.mem_unique hc hb'
  exact (c.cache.ready b hc).scribbled hl hcl bytes

/-- A head that is not performed has no answer in its slot. -/
theorem sent_served (hs : m.served h = none) (status : UInt8) :
    ∀ h' sl, m.driver.blk.slots h' = some sl → sl.done = true →
      update m.served h (some status) h' = some sl.status := by
  intro h' sl hsl hd
  have hold := c.sent.done h' sl hsl hd
  rw [update_of_ne]
  · exact hold
  · rintro rfl
    exact nomatch hs.symm.trans hold

theorem wrote (hw : m.Waits h lba) (hlen : bytes.length = blockBytes)
    (hb : status = 0 → bytes = (m.driver.blk.bounce h).take blockBytes) :
    Coupled { m with
      cache := { m.cache with device := update m.cache.device lba bytes }
      served := update m.served h (some status) } := by
  have hf : ∀ h' lba', Machine.Waits { m with
      cache := { m.cache with device := update m.cache.device lba bytes }
      served := update m.served h (some status) } h' lba' → m.Waits h' lba' :=
    fun h' lba' => Machine.Waits.of_served rfl rfl rfl
  refine ⟨c.scribbled hw bytes, c.driver,
    ⟨c.sent.whole, c.sent.header, c.sent.data, c.sent_served hw.2.1 status⟩, c.linked,
    fun lba' => ?_, c.sized, fun h' lba' hw' => c.load h' lba' (hf h' lba' hw'),
    fun h' lba' hw' => c.clear h' lba' (hf h' lba' hw'),
    fun t r h' hr hs => ?_, fun t r copied hr hs => ?_⟩
  · change (update m.cache.device lba bytes lba').length = blockBytes
    by_cases hl : lba' = lba
    · rw [hl, update_self, hlen]
    · rw [update_of_ne hl]
      exact c.disk lba'
  · have hp := c.pending t r h' hr hs
    by_cases hlba : r.lba = lba
    · cases hout : r.out with
      | none =>
        obtain ⟨k, i, hk, hd, -⟩ := c.clear h lba hw
        exact absurd (hk.trans hlba.symm) (not_dirty_of_read c.cache hr hout hd)
      | some bytes' =>
        simp only [Machine.Pending, hout] at hp ⊢
        -- The write that was performed is the one the task awaits.
        obtain rfl := hp.1 h (hlba ▸ hw)
        refine ⟨fun h'' hw'' => hp.1 h'' (hf h'' _ hw''), fun hz => ?_⟩
        rw [update_self] at hz
        rw [hlba, update_self, hb (Option.some.inj hz)]
        exact c.sent.data t r h bytes' hs hout
    · by_cases hne : h' = h
      · -- A head has one header, and the write's is for its own block.
        have hh := (c.sent.header t r h' hs).symm.trans (hne ▸ hw.2.2)
        exact absurd (congrArg RequestHeader.sector hh) hlba
      · exact hp.mono (fun h'' => hf h'' _) (update_of_ne hne ..)
          (update_of_ne hlba ..) rfl
  · have hfu := c.fulfilled t r copied hr hs
    have hlba : r.lba ≠ lba := by
      rintro rfl
      cases hout : r.out with
      | none =>
        obtain ⟨k, i, hk, hd, -⟩ := c.clear h r.lba hw
        exact not_dirty_of_read c.cache hr hout hd hk
      | some bytes' =>
        simp only [Machine.Fulfilled, hout] at hfu
        exact hfu.1 h hw
    exact hfu.mono (fun h'' => hf h'' _) (update_of_ne hlba ..)

theorem read (hse : m.served h = none) (hh : m.driver.blk.header h = ⟨.read, lba⟩)
    (hb : status = 0 → bytes = m.cache.device lba) :
    Coupled { m with
      driver := { m.driver with
        blk := { m.driver.blk with bounce := update m.driver.blk.bounce h bytes } }
      served := update m.served h (some status) } := by
  have hf : ∀ h' lba', Machine.Waits { m with
      driver := { m.driver with
        blk := { m.driver.blk with bounce := update m.driver.blk.bounce h bytes } }
      served := update m.served h (some status) } h' lba' → m.Waits h' lba' :=
    fun h' lba' => Machine.Waits.of_served rfl rfl rfl
  obtain ⟨free, chains, i⟩ := c.driver
  refine ⟨c.cache, ⟨free, chains, i.owned.of_done_eq i.owned.laid rfl rfl fun _ => rfl,
      i.held.of_slots_eq rfl⟩,
    ⟨c.sent.whole, c.sent.header, fun t r h' bytes' hs hout => ?_, c.sent_served hse status⟩,
    c.linked, c.disk, c.sized, fun h' lba' hw' => ?_,
    fun h' lba' hw' => c.clear h' lba' (hf h' lba' hw'), fun t r h' hr hs => ?_,
    fun t r copied hr hs => (c.fulfilled t r copied hr hs).mono (fun h'' => hf h'' _) rfl⟩
  · have hne : h' ≠ h := by
      rintro rfl
      have heq := (c.sent.header t r h' hs).symm.trans hh
      simp [Request.header, hout] at heq
    refine Eq.trans (congrArg (List.take blockBytes) ?_) (c.sent.data t r h' bytes' hs hout)
    exact update_of_ne hne ..
  · have hne : h' ≠ h := by
      rintro rfl
      exact nomatch hh.symm.trans hw'.2.2
    change ((update m.driver.blk.bounce h bytes h').take blockBytes).length = blockBytes
    rw [update_of_ne hne]
    exact c.load h' lba' (hf h' lba' hw')
  · by_cases hne : h' = h
    · have heq := (c.sent.header t r h' hs).symm.trans (hne ▸ hh)
      have hout : r.out = none := by
        by_contra hso
        simp [Request.header, Option.isSome_iff_ne_none.mpr hso] at heq
      have hlba : r.lba = lba := congrArg RequestHeader.sector heq
      simp only [Machine.Pending, hout, hne, update_self]
      intro hz
      rw [hb (Option.some.inj hz), hlba]
      exact List.take_of_length_le (c.disk lba).le
    · exact (c.pending t r h' hr hs).mono (fun h'' => hf h'' _) (update_of_ne hne ..) rfl
        (update_of_ne hne ..)

end Coupled

end Qunix.Storage
