/-
The coherence invariant of the buffer cache.

Seen through `line`, the slots are the lines of a write-back cache: a slot that
is being filled waits for its bytes, and a slot that is being written back is
still dirty. `Coherent` adds what the table, the guards and the references have
to agree on: each guard's slot is in the state its I/O left it in and has no
other guard, and each slot's pins are its live references.
-/

import Qunix.BufferCache.Sections
import Qunix.BufferCache.Threads
import Qunix.Lib.WriteBack

namespace Qunix.BufferCache

open Function Qunix.Lib

variable {N : Nat}

theorem BlockKey.lba_inj {k k' : BlockKey} (hk : k.Valid) (hk' : k'.Valid) (h : k.lba = k'.lba) :
    k = k' := by
  obtain ⟨dev, block⟩ := k
  obtain ⟨dev', block'⟩ := k'
  obtain rfl : dev = dev' := hk.1.trans hk'.1.symm
  simp only [lba, sectorsPerBlock] at h
  obtain rfl : block = block' := by omega
  rfl

/-! ### Slots as lines -/

def lineOf (slot : Slot) (frame : Bytes) (filling : Bool) : Line BlockKey Bytes :=
  match slot.state with
  | .free => .empty
  | .clean => .clean slot.key frame
  | .dirty => .dirty slot.key frame
  | .inFlight => if filling then .pending slot.key else .dirty slot.key frame

def Bcache.line (b : Bcache N) (i : Fin N) : Line BlockKey Bytes :=
  lineOf (b.table.slots i) (b.frames i) (b.filling i)

/-- What holds of every slot's record on its own. -/
structure Slot.Sound (s : Slot) (filling : Bool) : Prop where
  quiet : s.dirtiedDuringIo = false
  valid : s.state ≠ .free → s.key.Valid
  unread : s.state = .free → s.pins = 0
  fill : filling = true → s.state = .inFlight ∧ s.pins = 0

section Lines

variable {s : Slot} {frame : Bytes} {filling : Bool} {b b' : Bcache N} {i : Fin N} {key : BlockKey}

theorem key?_lineOf :
    (lineOf s frame filling).key? = if s.state = .free then none else some s.key := by
  unfold lineOf
  cases s.state <;> cases filling <;> rfl

theorem key?_line_eq_some :
    (b.line i).key? = some key ↔ (b.table.slots i).state ≠ .free ∧ (b.table.slots i).key = key := by
  rw [Bcache.line, key?_lineOf]
  split <;> simp_all

theorem key?_line_of_lookup_eq_none (h : b.table.lookup key = none) (j : Fin N) :
    (b.line j).key? ≠ some key := by
  intro hj
  obtain ⟨hs, hkey⟩ := key?_line_eq_some.mp hj
  exact Cache.lookup_eq_none h j hs hkey

theorem line_of_free (h : (b.table.slots i).state = .free) : b.line i = .empty := by
  simp [Bcache.line, lineOf, h]

/-- A slot that holds a block and is not being filled answers with its frame. -/
theorem answer?_lineOf (hs : s.state ≠ .free) (hf : filling = false) :
    (lineOf s frame filling).answer? = some (s.key, frame) := by
  unfold lineOf
  cases h : s.state <;> simp_all [Line.answer?]

/-- A line waits for its bytes only while its slot is being filled. -/
theorem line_eq_pending (h : b.line i = .pending key) :
    (b.table.slots i).state = .inFlight ∧ b.filling i = true ∧ (b.table.slots i).key = key := by
  unfold Bcache.line lineOf at h
  split at h
  · cases h
  · cases h
  · cases h
  · rename_i hs
    split_ifs at h
    exact ⟨hs, ‹_›, Line.pending.inj h⟩

theorem line_eq_dirty {x : Bytes} (h : b.line i = .dirty key x) :
    (b.table.slots i).state ≠ .free ∧ (b.table.slots i).key = key ∧ b.frames i = x ∧
      ((b.table.slots i).state = .inFlight → b.filling i = false) := by
  unfold Bcache.line lineOf at h
  split at h
  · cases h
  · cases h
  · rename_i hs
    obtain ⟨hkey, hf⟩ := Line.dirty.inj h
    exact ⟨by simp [hs], hkey, hf, by simp [hs]⟩
  · rename_i hs
    split_ifs at h with hfi
    obtain ⟨hkey, hf⟩ := Line.dirty.inj h
    exact ⟨by simp [hs], hkey, hf, fun _ => by simpa using hfi⟩

theorem Bcache.Becomes.refl (b : Bcache N) (i : Fin N) :
    b.Becomes i (b.table.slots i) (b.frames i) (b.filling i) b :=
  ⟨(update_eq_self ..).symm, (update_eq_self ..).symm, (update_eq_self ..).symm⟩

namespace Bcache.Becomes

variable (hb : b.Becomes i s frame filling b')

include hb

theorem line : b'.line = update b.line i (lineOf s frame filling) := by
  funext j
  simp only [Bcache.line, hb.slots, hb.frames, hb.filling]
  rcases eq_or_ne j i with rfl | hj
  · simp
  · simp [update_of_ne hj, Bcache.line]

theorem line_self : b'.line i = lineOf s frame filling := by
  rw [hb.line, update_self]

variable {j : Fin N}

theorem line_of_ne (hj : j ≠ i) : b'.line j = b.line j := by
  rw [hb.line, update_of_ne hj]

theorem slot_self : b'.table.slots i = s := by
  rw [hb.slots, update_self]

theorem slot_of_ne (hj : j ≠ i) : b'.table.slots j = b.table.slots j := by
  rw [hb.slots, update_of_ne hj]

theorem frame_self : b'.frames i = frame := by
  rw [hb.frames, update_self]

theorem frame_of_ne (hj : j ≠ i) : b'.frames j = b.frames j := by
  rw [hb.frames, update_of_ne hj]

theorem line_eq (h : lineOf s frame filling = b.line i) : b'.line = b.line := by
  rw [hb.line, h, update_eq_self]

theorem sound (hso : ∀ j, (b.table.slots j).Sound (b.filling j)) (hs : s.Sound filling)
    (j : Fin N) :
    (b'.table.slots j).Sound (b'.filling j) := by
  rw [hb.slots, hb.filling]
  rcases eq_or_ne j i with rfl | hj
  · simpa using hs
  · simpa [update_of_ne hj] using hso j

end Bcache.Becomes

end Lines

/-! ### Guards -/

/-- How far the I/O of a guard has come. -/
inductive Stage where
  | filling
  | filled
  | writing
  | submitted (bytes : Bytes)
  | written

/-- The guard of a `Fill` or a `Writeback`. -/
structure Hold (N : Nat) where
  slot : Fin N
  key : BlockKey
  stage : Stage

def Task.hold : Task N → Option (Hold N)
  | .fill c token => some ⟨token.slot, c.key, .filling⟩
  | .filled c token outcome =>
    some ⟨token.slot, c.key, if outcome.toBool then .filled else .filling⟩
  | .submit _ w => some ⟨w.token.slot, w.key, .writing⟩
  | .writing _ w bytes => some ⟨w.token.slot, w.key, .submitted bytes⟩
  | .written _ w outcome =>
    some ⟨w.token.slot, w.key, if outcome.toBool then .written else .writing⟩
  | _ => none

/-- What the guard's slot holds at that stage, over the device `backing`. -/
def Stage.Fits (key : BlockKey) (line : Line BlockKey Bytes) (frame : Bytes)
    (backing : BlockKey → Bytes) : Stage → Prop
  | .filling => line = .pending key
  | .filled => line = .pending key ∧ frame = backing key
  | .writing => line = .dirty key frame
  | .submitted bytes => line = .dirty key frame ∧ bytes = frame
  | .written => line = .dirty key frame ∧ backing key = frame

def Hold.Matches (h : Hold N) (b : Bcache N) (backing : BlockKey → Bytes) : Prop :=
  (b.table.slots h.slot).state = .inFlight ∧
    h.stage.Fits h.key (b.line h.slot) (b.frames h.slot) backing

variable {stage : Stage} {key : BlockKey} {line : Line BlockKey Bytes} {frame : Bytes}
  {backing : BlockKey → Bytes}

theorem Stage.Fits.key? (h : stage.Fits key line frame backing) :
    line.key? = some key := by
  cases stage with
  | filling | writing => rw [show line = _ from h]; rfl
  | filled | submitted bytes | written => rw [h.1]; rfl

theorem Stage.Fits.congr {backing' : BlockKey → Bytes} (h : stage.Fits key line frame backing)
    (hs : backing' key = backing key) : stage.Fits key line frame backing' := by
  cases stage with
  | filling | writing | submitted bytes => exact h
  | filled => exact ⟨h.1, h.2.trans hs.symm⟩
  | written => exact ⟨h.1, hs.trans h.2⟩

structure Guards (b : Bcache N) (backing : BlockKey → Bytes) (hold : Nat → Option (Hold N)) :
    Prop where
  held : ∀ t h, hold t = some h → h.Matches b backing
  single : ∀ t u h g, hold t = some h → hold u = some g → h.slot = g.slot → t = u

namespace Guards

variable {b b' : Bcache N} {backing backing' : BlockKey → Bytes} {hold : Nat → Option (Hold N)}
  {i : Fin N} {s : Slot} {frame : Bytes} {filling : Bool} {t : Nat} {v : Option (Hold N)}
  {key : BlockKey} {stage : Stage}

variable (h : Guards b backing hold)

include h

theorem not_held (hi : (b.table.slots i).state ≠ .inFlight) (u : Nat)
    (g : Hold N) (hg : hold u = some g) : g.slot ≠ i := by
  rintro rfl
  exact hi (h.held u g hg).1

theorem slot_of_hold (hm : hold t = some ⟨i, key, stage⟩) :
    (b.table.slots i).state = .inFlight ∧ stage.Fits key (b.line i) (b.frames i) backing :=
  h.held t _ hm

theorem not_held_else (hm : hold t = some ⟨i, key, stage⟩)
    (u : Nat) (hu : u ≠ t) (g : Hold N) (hg : hold u = some g) : g.slot ≠ i := fun heq =>
  hu (h.single u t g _ hg hm heq)

theorem same
    (hsa : ∀ u g, hold u = some g →
      (b'.table.slots g.slot).state = (b.table.slots g.slot).state ∧
        b'.line g.slot = b.line g.slot ∧ b'.frames g.slot = b.frames g.slot) :
    Guards b' backing hold where
  held := by
    intro u g hg
    obtain ⟨hs, hl, hf⟩ := hsa u g hg
    rw [Hold.Matches, hs, hl, hf]
    exact h.held u g hg
  single := h.single

theorem unheld (hb : b.Becomes i s frame filling b')
    (hi : (b.table.slots i).state ≠ .inFlight) : Guards b' backing hold := by
  refine h.same fun u g hg => ?_
  have hne := h.not_held hi u g hg
  exact ⟨by rw [hb.slot_of_ne hne], hb.line_of_ne hne, hb.frame_of_ne hne⟩

theorem repinned {n : Nat}
    (hb : b.Becomes i { b.table.slots i with pins := n } (b.frames i) (b.filling i) b') :
    Guards b' backing hold := by
  refine h.same fun u g _ => ⟨?_, congrFun (hb.line_eq rfl) g.slot, ?_⟩
  · rw [hb.slots]
    by_cases hg : g.slot = i
    · rw [hg, update_self]
    · rw [update_of_ne hg]
  · rw [hb.frames, update_eq_self]

/-- Thread `t`'s guard becomes `v`, for the slot that changes. -/
theorem becomes (hb : b.Becomes i s frame filling b')
    (he : ∀ u, u ≠ t → ∀ g, hold u = some g → g.slot ≠ i)
    (hba : ∀ u, u ≠ t → ∀ g, hold u = some g → backing' g.key = backing g.key)
    (hv : ∀ g, v = some g → g.slot = i ∧ g.Matches b' backing') :
    Guards b' backing' (update hold t v) where
  held := by
    intro u g hg
    rw [update_apply] at hg
    split_ifs at hg with hu
    · exact (hv g hg).2
    · obtain ⟨hs, hf⟩ := h.held u g hg
      have hne := he u hu g hg
      rw [Hold.Matches, hb.slot_of_ne hne, hb.line_of_ne hne, hb.frame_of_ne hne]
      exact ⟨hs, hf.congr (hba u hu g hg)⟩
  single := by
    intro u w g g' hg hg' heq
    by_cases hu : u = t <;> by_cases hw : w = t
    · rw [hu, hw]
    · rw [hu, update_self] at hg
      rw [update_of_ne hw] at hg'
      exact absurd (heq.symm.trans (hv g hg).1) (he w hw g' hg')
    · rw [update_of_ne hu] at hg
      rw [hw, update_self] at hg'
      exact absurd (heq.trans (hv g' hg').1) (he u hu g hg)
    · rw [update_of_ne hu] at hg
      rw [update_of_ne hw] at hg'
      exact h.single u w g g' hg hg' heq

theorem take (hb : b.Becomes i s frame filling b')
    (he : ∀ u, u ≠ t → ∀ g, hold u = some g → g.slot ≠ i)
    (hba : ∀ u, u ≠ t → ∀ g, hold u = some g → backing' g.key = backing g.key)
    (hs : s.state = .inFlight)
    (hf : stage.Fits key (lineOf s frame filling) frame backing') :
    Guards b' backing' (update hold t (some ⟨i, key, stage⟩)) :=
  h.becomes hb he hba fun g hg => by
    cases hg
    rw [Hold.Matches, hb.slot_self, hb.line_self, hb.frame_self]
    exact ⟨rfl, hs, hf⟩

theorem letGo (hm : hold t = some ⟨i, key, stage⟩)
    (hb : b.Becomes i s frame filling b') : Guards b' backing (update hold t none) :=
  h.becomes hb (h.not_held_else hm) (fun _ _ _ _ => rfl) nofun

end Guards

/-! ### References -/

structure Pins (b : Bcache N) (refs : List (BlockRef N)) : Prop where
  live : ∀ r ∈ refs, (b.line r.slot).answer? = some (r.key, b.frames r.slot)
  count : ∀ i, (b.table.slots i).pins = refs.countP (·.slot = i)

namespace Pins

variable {b b' : Bcache N} {refs refs' : List (BlockRef N)} {i : Fin N} {s : Slot} {frame : Bytes}
  {filling : Bool}

variable (h : Pins b refs)

include h

theorem not_mem (hi : (b.table.slots i).pins = 0) (r : BlockRef N)
    (hr : r ∈ refs) : r.slot ≠ i := by
  rw [h.count i, List.countP_eq_zero] at hi
  simpa using hi r hr

theorem becomes (hb : b.Becomes i s frame filling b')
    (ho : ∀ r ∈ refs', r.slot ≠ i → r ∈ refs)
    (hm : ∀ r ∈ refs', r.slot = i → (lineOf s frame filling).answer? = some (r.key, frame))
    (hc : ∀ j, j ≠ i → refs'.countP (·.slot = j) = refs.countP (·.slot = j))
    (hp : s.pins = refs'.countP (·.slot = i)) : Pins b' refs' where
  live := by
    intro r hr
    by_cases hri : r.slot = i
    · rw [hri, hb.line_self, hb.frame_self]
      exact hm r hr hri
    · rw [hb.line_of_ne hri, hb.frame_of_ne hri]
      exact h.live r (ho r hr hri)
  count := by
    intro j
    rcases eq_or_ne j i with rfl | hj
    · rw [hb.slot_self, hp]
    · rw [hb.slot_of_ne hj, h.count j, hc j hj]

theorem unread (hb : b.Becomes i s frame filling b')
    (hi : (b.table.slots i).pins = 0) (hs : s.pins = 0) : Pins b' refs :=
  h.becomes hb (fun _ hr _ => hr) (fun r hr heq => absurd heq (h.not_mem hi r hr))
    (fun _ _ => rfl) (by rw [hs, ← h.count i, hi])

theorem keep (hb : b.Becomes i s (b.frames i) filling b')
    (ha : (lineOf s (b.frames i) filling).answer? = (b.line i).answer?)
    (hs : s.pins = (b.table.slots i).pins) : Pins b' refs := by
  refine h.becomes hb (fun _ hr _ => hr) (fun r hr heq => ?_) (fun _ _ => rfl) ?_
  · rw [ha, ← heq]
    exact h.live r hr
  · rw [hs, h.count i]

theorem pin (hb : b.Becomes i s (b.frames i) filling b') {key : BlockKey}
    (ha : (lineOf s (b.frames i) filling).answer? = some (key, b.frames i))
    (hold : ∀ r ∈ refs, r.slot = i → r.key = key)
    (hs : s.pins = (b.table.slots i).pins + 1) : Pins b' (⟨i, key⟩ :: refs) := by
  refine h.becomes hb (fun r hr hne => ?_) (fun r hr heq => ?_) (fun j hj => ?_) ?_
  · rcases List.mem_cons.mp hr with rfl | hr
    · exact absurd rfl hne
    · exact hr
  · rcases List.mem_cons.mp hr with rfl | hr
    · exact ha
    · rw [hold r hr heq]
      exact ha
  · exact List.countP_cons_of_neg (by simpa using Ne.symm hj)
  · rw [hs, h.count i, List.countP_cons_of_pos (by simp)]

theorem unpin {r : BlockRef N} (hr : r ∈ refs)
    (hb : b.Becomes r.slot s (b.frames r.slot) filling b')
    (ha : (lineOf s (b.frames r.slot) filling).answer? = (b.line r.slot).answer?)
    (hs : s.pins = (b.table.slots r.slot).pins - 1) : Pins b' (refs.erase r) := by
  refine h.becomes hb (fun q hq _ => List.mem_of_mem_erase hq) (fun q hq heq => ?_)
    (fun j hj => ?_) ?_
  · rw [ha, ← heq]
    exact h.live q (List.mem_of_mem_erase hq)
  · rw [(List.perm_cons_erase hr).countP_eq, List.countP_cons_of_neg (by simpa using Ne.symm hj)]
  · rw [hs, h.count, (List.perm_cons_erase hr).countP_eq, List.countP_cons_of_pos (by simp)]
    omega

end Pins

end Qunix.BufferCache
