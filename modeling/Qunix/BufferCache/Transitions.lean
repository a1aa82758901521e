/-
What each change of a slot keeps.

The changes are those of the lock sections and of the device's completions:
emptying a slot, claiming one for a fill, pinning, finishing or abandoning a
fill, writing, beginning and ending a writeback, and letting go of a reference.
-/

import Qunix.BufferCache.Invariant

namespace Qunix.BufferCache

open Function Qunix.Lib

variable {N : Nat}

/-- The invariant of an initialised cache, its device, the guards its threads
hold and the references they were handed. -/
structure Coherent (b : Bcache N) (device : Nat → Bytes) (last : BlockKey → Option Bytes)
    (hold : Nat → Option (Hold N)) (refs : List (BlockRef N)) : Prop where
  lines : WriteBack b.line (fun k => device k.lba) last
  sound : ∀ i, (b.table.slots i).Sound (b.filling i)
  written : ∀ k, last k ≠ none → k.Valid
  guards : Guards b (fun k => device k.lba) hold
  pins : Pins b refs

namespace Coherent

variable {b b' : Bcache N} {device : Nat → Bytes} {last : BlockKey → Option Bytes}
  {hold : Nat → Option (Hold N)} {refs : List (BlockRef N)} {i : Fin N} {key : BlockKey} {t : Nat}
  {frame : Bytes}

section

variable (h : Coherent b device last hold refs)

include h

theorem valid_of_live {k : BlockKey}
    (hk : Live b.line last k) : k.Valid := by
  rcases hk with ⟨j, hj⟩ | hl
  · obtain ⟨hs, rfl⟩ := key?_line_eq_some.mp hj
    exact (h.sound j).valid hs
  · exact h.written k hl

/-- The line and the other facts of a slot that is being filled. -/
theorem filling_of_pending (hl : b.line i = .pending key) :
    (b.table.slots i).state = .inFlight ∧ b.filling i = true ∧ (b.table.slots i).key = key ∧
      (b.table.slots i).pins = 0 ∧ Settled (fun k => device k.lba) last key := by
  obtain ⟨hs, hfi, hkey⟩ := line_eq_pending hl
  have hf := h.lines.fits i
  rw [hl] at hf
  exact ⟨hs, hfi, hkey, ((h.sound i).fill hfi).2, hf⟩

theorem not_filling
    (hi : (b.table.slots i).state ≠ .inFlight) : b.filling i = false := by
  by_contra hf
  exact hi ((h.sound i).fill (by simpa using hf)).1

theorem freed (hb : b.Freed b') :
    Coherent b' device last hold refs := by
  rcases hb with rfl | ⟨v, hr, hb⟩
  · exact h
  · obtain ⟨hs, hp⟩ : ((b.table.slots v).state = .free ∨ (b.table.slots v).state = .clean) ∧
        (b.table.slots v).pins = 0 := by simpa [Slot.reusable] using hr
    have hio : (b.table.slots v).state ≠ .inFlight := by rcases hs with h | h <;> simp [h]
    have hfi := h.not_filling hio
    refine ⟨?_, hb.sound h.sound ?_, h.written, h.guards.unheld hb hio,
      h.pins.unread hb hp rfl⟩
    · rw [hb.line]
      refine h.lines.release fun k hk => ?_
      obtain ⟨hne, rfl⟩ := key?_line_eq_some.mp hk
      have hf := h.lines.fits v
      simp only [Bcache.line, lineOf, hs.resolve_left hne] at hf
      exact hf.2
    · exact ⟨rfl, fun hne => absurd rfl hne, fun _ => rfl, by simp [hfi]⟩

/-- A free slot is claimed for a block that has none; it will be filled. -/
theorem claimed (hkey : key.Valid)
    (ha : b.table.lookup key = none) (hf : (b.table.slots i).state = .free)
    (hb : b.Becomes i (Bcache.claimed key) (b.frames i) true b') :
    Coherent b' device last (update hold t (some ⟨i, key, .filling⟩)) refs := by
  have hn := key?_line_of_lookup_eq_none ha
  refine ⟨?_, hb.sound h.sound ⟨rfl, fun _ => hkey, nofun, fun _ => ⟨rfl, rfl⟩⟩, h.written, ?_,
    h.pins.unread hb ((h.sound i).unread hf) rfl⟩
  · rw [hb.line]
    refine h.lines.set (fun k hk j hj => ?_) (fun k hk _ => ?_) (h.lines.absent key hn)
    · cases hk
      exact absurd hj (hn j)
    · rw [line_of_free hf] at hk
      cases hk
  · exact h.guards.take hb (fun u _ => h.guards.not_held (by simp [hf]) u)
      (fun _ _ _ _ => rfl) rfl rfl

theorem hit (hfo : b.table.lookup key = some i)
    (hre : ¬ ((b.table.slots i).state = .inFlight ∧ b.filling i = true))
    (hb : b.Becomes i { b.table.slots i with pins := (b.table.slots i).pins + 1 } (b.frames i)
      (b.filling i) b') :
    Coherent b' device last hold (⟨i, key⟩ :: refs) := by
  obtain ⟨hs, hkey⟩ := Cache.lookup_eq_some hfo
  have hf : b.filling i = false := by
    by_contra hf
    have hf : b.filling i = true := by simpa using hf
    exact hre ⟨((h.sound i).fill hf).1, hf⟩
  have hli : b'.line = b.line := hb.line_eq rfl
  have ha : (b.line i).answer? = some (key, b.frames i) :=
    hkey ▸ answer?_lineOf hs hf
  refine ⟨hli ▸ h.lines, hb.sound h.sound ?_, h.written, ?_, ?_⟩
  · obtain ⟨hq, hv, -, -⟩ := h.sound i
    exact ⟨hq, hv, fun hfr => absurd hfr hs, by simp [hf]⟩
  · exact h.guards.repinned hb
  · refine h.pins.pin hb ha (fun r hr heq => ?_) rfl
    have hl := h.pins.live r hr
    rw [heq, ha] at hl
    exact (Prod.mk.inj (Option.some.inj hl)).1.symm

end

/-! ### Fills -/

section Fills

variable {stage : Stage}

variable (h : Coherent b device last hold refs)

include h

/-- The read delivered: the slot is clean and its reader has a reference. -/
theorem finished
    (hm : hold t = some ⟨i, key, .filled⟩)
    (hb : b.Becomes i
      { b.table.slots i with state := .clean, pins := (b.table.slots i).pins + 1 } (b.frames i)
      false b') :
    Coherent b' device last (update hold t none) (⟨i, key⟩ :: refs) := by
  obtain ⟨-, hl, hf⟩ := h.guards.slot_of_hold hm
  obtain ⟨hst, hfi, hkey, hp, hs⟩ := h.filling_of_pending hl
  have hnew : lineOf { b.table.slots i with
      state := .clean, pins := (b.table.slots i).pins + 1 } (b.frames i) false =
      .clean key (b.frames i) := by rw [← hkey]; rfl
  refine ⟨?_, hb.sound h.sound ?_, h.written, h.guards.letGo hm hb, ?_⟩
  · rw [hb.line, hnew]
    exact h.lines.replace (by rw [hl]; rfl) ⟨hf.symm, hs⟩
  · obtain ⟨hq, hv, -, -⟩ := h.sound i
    exact ⟨hq, fun _ => hv (by simp [hst]), nofun, nofun⟩
  · refine h.pins.pin hb (by rw [hnew]; rfl) (fun r hr heq => ?_) rfl
    exact absurd heq (h.pins.not_mem hp r hr)

/-- The read failed or was dropped: the slot is empty again. -/
theorem abandoned
    (hm : hold t = some ⟨i, key, .filling⟩) (hb : b.Becomes i .empty frame false b') :
    Coherent b' device last (update hold t none) refs := by
  obtain ⟨-, hl⟩ := h.guards.slot_of_hold hm
  obtain ⟨-, -, -, hp, hs⟩ := h.filling_of_pending hl
  refine ⟨?_, hb.sound h.sound ⟨rfl, fun hne => absurd rfl hne, fun _ => rfl, nofun⟩, h.written,
    h.guards.letGo hm hb, h.pins.unread hb hp rfl⟩
  rw [hb.line]
  refine h.lines.release fun k hk => ?_
  rw [hl] at hk
  exact Option.some.inj hk ▸ hs

/-- Bytes arrive in the frame of a slot that is being filled. -/
theorem arrived
    (hm : hold t = some ⟨i, key, .filling⟩)
    (hb : b.Becomes i (b.table.slots i) frame (b.filling i) b')
    (hst : stage.Fits key (.pending key) frame fun k => device k.lba) :
    Coherent b' device last (update hold t (some ⟨i, key, stage⟩)) refs := by
  obtain ⟨hs, hl⟩ := h.guards.slot_of_hold hm
  obtain ⟨-, hf, hkey, hp, -⟩ := h.filling_of_pending hl
  have hsa : lineOf (b.table.slots i) frame (b.filling i) = b.line i := by
    rw [hl, ← hkey]
    simp [lineOf, hs, hf]
  refine ⟨hb.line_eq hsa ▸ h.lines, hb.sound h.sound (h.sound i), h.written, ?_,
    h.pins.unread hb hp hp⟩
  refine h.guards.take hb (h.guards.not_held_else hm) (fun _ _ _ _ => rfl) hs ?_
  rw [hsa, hl]
  exact hst

end Fills

/-! ### Writes -/

/-- New bytes go into a slot that is the block's own, or that was free. -/
theorem stored (h : Coherent b device last hold refs) (hv : key.Valid) {s : Slot}
    (hs : s = { Bcache.claimed key with state := .dirty })
    (hm : ∀ j, (b.line j).key? = some key → j = i)
    (hl : ∀ k, (b.line i).key? = some k → k = key)
    (hio : (b.table.slots i).state ≠ .inFlight) (hp : (b.table.slots i).pins = 0)
    (hb : b.Becomes i s frame (b.filling i) b') :
    Coherent b' device (update last key (some frame)) hold refs := by
  subst hs
  have hf := h.not_filling hio
  refine ⟨?_, hb.sound h.sound ⟨rfl, fun _ => hv, nofun, by simp [hf]⟩, fun k hk => ?_,
    h.guards.unheld hb hio, h.pins.unread hb hp rfl⟩
  · rw [hb.line]
    exact h.lines.write hm hl frame
  · by_cases hkey : k = key
    · exact hkey ▸ hv
    · rw [update_of_ne hkey] at hk
      exact h.written k hk

/-! ### Writebacks -/

section Writebacks

variable {stage : Stage} {bytes : Bytes}

variable (h : Coherent b device last hold refs)

include h

theorem begun (hd : (b.table.slots i).state = .dirty)
    (hb : b.Becomes i { b.table.slots i with state := .inFlight } (b.frames i) (b.filling i) b') :
    Coherent b' device last (update hold t (some ⟨i, (b.table.slots i).key, .writing⟩)) refs := by
  have hio : (b.table.slots i).state ≠ .inFlight := by simp [hd]
  have hf := h.not_filling hio
  have hl : b.line i = .dirty (b.table.slots i).key (b.frames i) := by
    simp [Bcache.line, lineOf, hd]
  have hs : lineOf { b.table.slots i with state := .inFlight } (b.frames i) (b.filling i) =
      b.line i := by
    rw [hl, hf]
    rfl
  refine ⟨hb.line_eq hs ▸ h.lines, hb.sound h.sound ?_, h.written, ?_,
    h.pins.keep hb (by rw [hs]) rfl⟩
  · obtain ⟨hq, hv, -, -⟩ := h.sound i
    exact ⟨hq, fun _ => hv (by simp [hd]), by simp, by simp [hf]⟩
  · exact h.guards.take hb (fun u _ => h.guards.not_held hio u) (fun _ _ _ _ => rfl) rfl
      (hs.trans hl)

theorem submitted
    (hm : hold t = some ⟨i, key, .writing⟩) :
    Coherent b device last (update hold t (some ⟨i, key, .submitted (b.frames i)⟩)) refs := by
  obtain ⟨hs, hl⟩ := h.guards.slot_of_hold hm
  exact { h with
    guards := h.guards.take (Bcache.Becomes.refl b i) (h.guards.not_held_else hm)
      (fun _ _ _ _ => rfl) hs ⟨hl, rfl⟩ }

/-- A write of one block leaves the device's bytes of the others alone. -/
theorem device_of_ne (hli : (b.line i).key? = some key)
    (held : Bytes) (k : BlockKey) (hk : k ≠ key) (hl : Live b.line last k) :
    update device key.lba held k.lba = device k.lba :=
  update_of_ne (fun heq =>
    hk (BlockKey.lba_inj (h.valid_of_live hl) (h.valid_of_live (.inl ⟨i, hli⟩)) heq)) ..

/-- The device's bytes of a dirty block become anything, while no writeback of the
block waits to hear that it succeeded. -/
theorem scribbled {x : Bytes} (hl : b.line i = .dirty key x)
    (hn : ∀ u g, hold u = some g → g.stage = .written → g.key ≠ key) (held : Bytes) :
    Coherent b (update device key.lba held) last hold refs := by
  have hkey : (b.line i).key? = some key := by rw [hl]; rfl
  have hsa := h.device_of_ne hkey held
  refine { h with lines := h.lines.scribble hl hsa, guards := ⟨fun u g hg => ?_, h.guards.single⟩ }
  obtain ⟨hst, hf⟩ := h.guards.held u g hg
  refine ⟨hst, ?_⟩
  by_cases hgk : g.key = key
  · have hsl : g.slot = i := h.lines.unique _ _ _ hf.key? (hgk ▸ hkey)
    cases hs : g.stage with
    | written => exact absurd hgk (hn u g hg hs)
    | filled =>
      rw [hs, hsl, hl] at hf
      exact nomatch hf.1
    | filling | writing | submitted bytes =>
      rw [hs] at hf
      exact hf
  · exact hf.congr (hsa g.key hgk (.inl ⟨g.slot, hf.key?⟩))

/-- The device's bytes of a block under writeback become anything. -/
theorem answered
    (hm : hold t = some ⟨i, key, .submitted bytes⟩) (held : Bytes)
    (hs : stage.Fits key (.dirty key (b.frames i)) (b.frames i)
      fun k => update device key.lba held k.lba) :
    Coherent b (update device key.lba held) last (update hold t (some ⟨i, key, stage⟩)) refs := by
  obtain ⟨hst, hl, -⟩ := h.guards.slot_of_hold hm
  have hsa := h.device_of_ne (by rw [hl]; rfl) held
  rw [← hl] at hs
  refine { h with lines := h.lines.scribble hl hsa, guards := ?_ }
  refine h.guards.take (Bcache.Becomes.refl b i) (h.guards.not_held_else hm)
    (fun u hu g hg => ?_) hst hs
  have hkey := (h.guards.held u g hg).2.key?
  refine hsa g.key ?_ (.inl ⟨g.slot, hkey⟩)
  rintro heq
  refine h.guards.not_held_else hm u hu g hg (h.lines.unique _ _ key (heq ▸ hkey) ?_)
  rw [hl]
  rfl

/-- The device holds the bytes: the slot is clean. -/
theorem cleaned
    (hm : hold t = some ⟨i, key, .written⟩)
    (hb : b.Becomes i { b.table.slots i with state := .clean } (b.frames i) (b.filling i) b') :
    Coherent b' device last (update hold t none) refs := by
  obtain ⟨hs, hl, hh⟩ := h.guards.slot_of_hold hm
  obtain ⟨-, hkey, -, hfi⟩ := line_eq_dirty hl
  have hnew : lineOf { b.table.slots i with state := .clean } (b.frames i) (b.filling i) =
      .clean key (b.frames i) := by rw [← hkey]; rfl
  refine ⟨?_, hb.sound h.sound ?_, h.written, h.guards.letGo hm hb,
    h.pins.keep hb (by rw [hnew, hl]; rfl) rfl⟩
  · rw [hb.line, hnew]
    refine h.lines.replace (by rw [hl]; rfl) ⟨hh, fun x hx => hh.trans ?_⟩
    have hf := h.lines.fits i
    rw [hl] at hf
    exact Option.mem_unique hf hx
  · obtain ⟨hq, hv, -, -⟩ := h.sound i
    exact ⟨hq, fun _ => hv (by rw [hs]; simp), nofun, by simp [hfi hs]⟩

/-- The device may not hold the bytes: the slot is dirty again. -/
theorem kept
    (hm : hold t = some ⟨i, key, .writing⟩)
    (hb : b.Becomes i { b.table.slots i with state := .dirty } (b.frames i) (b.filling i) b') :
    Coherent b' device last (update hold t none) refs := by
  obtain ⟨hs, hl⟩ := h.guards.slot_of_hold hm
  obtain ⟨-, hkey, -, hf⟩ := line_eq_dirty hl
  have hsa : lineOf { b.table.slots i with state := .dirty } (b.frames i) (b.filling i) =
      b.line i := by
    rw [show b.line i = .dirty key (b.frames i) from hl, ← hkey]
    rfl
  refine ⟨hb.line_eq hsa ▸ h.lines, hb.sound h.sound ?_, h.written, h.guards.letGo hm hb,
    h.pins.keep hb (by rw [hsa]) rfl⟩
  obtain ⟨hq, hv, -, -⟩ := h.sound i
  exact ⟨hq, fun _ => hv (by rw [hs]; simp), nofun, by simp [hf hs]⟩

end Writebacks

/-! ### References -/

theorem unpinned (h : Coherent b device last hold refs) {r : BlockRef N} (hr : r ∈ refs)
    (hb : b.Becomes r.slot
      { b.table.slots r.slot with pins := (b.table.slots r.slot).pins - 1 } (b.frames r.slot)
      (b.filling r.slot) b') :
    Coherent b' device last hold (refs.erase r) := by
  have hl : b'.line = b.line := hb.line_eq rfl
  obtain ⟨hq, hv, hu, hfi⟩ := h.sound r.slot
  refine ⟨hl ▸ h.lines, hb.sound h.sound ⟨hq, hv, fun hfr => ?_, fun hf => ?_⟩,
    h.written, h.guards.repinned hb, h.pins.unpin hr hb rfl rfl⟩
  · simp [hu hfr]
  · exact ⟨(hfi hf).1, by simp [(hfi hf).2]⟩

end Coherent

end Qunix.BufferCache
