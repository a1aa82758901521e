/-
A live `BlockRef` is stable.

The pins of a slot count the references to it. A slot that is read is not free
and not being filled, no write goes into it, and every step leaves its block and
its bytes in place (`Inv.keeps`); so they stay for as long as the reference is
live (`ref_stable`).
-/

import Qunix.BufferCache.History

namespace Qunix.BufferCache

open Function Qunix.Lib

variable {N : Nat}

/-- Making room leaves the counts of references as they are. -/
theorem Bcache.Freed.pins_eq {b b' : Bcache N} (hf : b.Freed b') (i : Fin N) :
    (b'.table.slots i).pins = (b.table.slots i).pins := by
  rcases hf with rfl | ⟨v, hr, hb⟩
  · rfl
  · by_cases hiv : i = v
    · have hp : (b.table.slots v).pins = 0 := by
        simp only [Slot.reusable, Bool.and_eq_true, beq_iff_eq] at hr
        exact hr.2
      rw [hiv, hb.slot_self, hp]
      rfl
    · rw [hb.slot_of_ne hiv]

theorem Bcache.Freed.slot_of_pinned {b b' : Bcache N} (hf : b.Freed b') {i : Fin N}
    (hi : (b.table.slots i).pins ≠ 0) :
    b'.table.slots i = b.table.slots i ∧ b'.frames i = b.frames i := by
  rcases hf with rfl | ⟨v, hr, hb⟩
  · exact ⟨rfl, rfl⟩
  · have hiv : i ≠ v := by
      rintro rfl
      simp only [Slot.reusable, Bool.and_eq_true, beq_iff_eq] at hr
      exact hi hr.2
    exact ⟨hb.slot_of_ne hiv, hb.frame_of_ne hiv⟩

/-- Slot `i` keeps its block and its bytes. -/
def Keeps (s s' : Sys N) (i : Fin N) : Prop :=
  ∀ b, s.cache = some b →
    ∃ b', s'.cache = some b' ∧ b'.table.keyOf i = b.table.keyOf i ∧ b'.frames i = b.frames i

section Keeps

variable {s s' : Sys N} {b b₁ b' : Bcache N} {i j : Fin N} {slot : Slot} {frame : Bytes}
  {filling : Bool} {a : Act N}

theorem Keeps.of_cache (hc : s'.cache = s.cache) : Keeps s s' i :=
  fun b hb => ⟨b, hc.trans hb, rfl, rfl⟩

theorem Keeps.trans {s'' : Sys N} (h : Keeps s s' i) (h' : Keeps s' s'' i) : Keeps s s'' i := by
  intro b hb
  obtain ⟨b', hb', hkey, hf⟩ := h b hb
  obtain ⟨b'', hb'', hkey', hf'⟩ := h' b' hb'
  exact ⟨b'', hb'', hkey'.trans hkey, hf'.trans hf⟩

/-- One slot changes, after room was made: another one, or one that keeps its
block and its bytes. -/
theorem Keeps.of_becomes (hc : s.cache = some b) (hf : b.Freed b₁)
    (hb : b₁.Becomes j slot frame filling b') (hc' : s'.cache = some b')
    (hi : (b.table.slots i).pins ≠ 0)
    (hm : i = j → slot.key = (b₁.table.slots j).key ∧
      (slot.state = .free ↔ (b₁.table.slots j).state = .free) ∧ frame = b₁.frames j) :
    Keeps s s' i := by
  intro b₀ hb₀
  obtain rfl := Option.mem_unique hc hb₀
  obtain ⟨hs, hfr⟩ := hf.slot_of_pinned hi
  refine ⟨b', hc', ?_, ?_⟩
  · simp only [Cache.keyOf, ← hs, hb.slots]
    by_cases hij : i = j
    · obtain ⟨hkey, hfree, -⟩ := hm hij
      simp [hij, hkey, hfree]
    · rw [update_of_ne hij]
  · rw [← hfr, hb.frames]
    by_cases hij : i = j
    · rw [hij, update_self, (hm hij).2.2]
    · rw [update_of_ne hij]

/-- A slot that is read keeps its block and its bytes in every step. -/
theorem Inv.keeps (h : Inv s) (hs : s.step a = some s')
    (hi : ∀ b, s.cache = some b → (b.table.slots i).pins ≠ 0) : Keeps s s' i := by
  -- A slot without readers that changes is another one.
  have hu : ∀ {b b₁ : Bcache N} {j : Fin N} {P : Prop}, s.cache = some b → b.Freed b₁ →
      (b₁.table.slots j).pins = 0 → i = j → P := by
    rintro b b₁ j P hc hf hj rfl
    exact absurd (hf.pins_eq i ▸ hj) (hi b hc)
  have hp : ∀ {b : Bcache N} {j : Fin N} {k : BlockKey}, s.cache = some b →
      b.line j = .pending k → (b.table.slots j).pins = 0 := by
    intro b j k hc hl
    obtain ⟨-, -, -, hpi, -⟩ := (h.ready b hc).filling_of_pending hl
    exact hpi
  cases h.change hs with
  | quiet hq => exact .of_cache hq.cache
  | init hn => exact fun b hb => nomatch hn.symm.trans hb
  | @refused _ _ b b' hc hf =>
    intro b₀ hb₀
    obtain rfl := Option.mem_unique hc hb₀
    obtain ⟨hsl, hframe⟩ := hf.slot_of_pinned (hi b hc)
    exact ⟨b', rfl, by rw [Cache.keyOf, hsl, Cache.keyOf], hframe⟩
  | hit hc _ _ _ hb | unpinned hc _ hb =>
    exact .of_becomes hc (.inl rfl) hb rfl (hi _ hc) fun _ => ⟨rfl, Iff.rfl, rfl⟩
  | claimed hc _ hf _ hfr hb | storedNew hc _ hf _ hfr hb =>
    exact .of_becomes hc hf hb rfl (hi _ hc)
      (hu hc hf ((((h.ready _ hc).freed hf).sound _).unread hfr))
  | arrived hc ht =>
    exact .of_becomes hc (.inl rfl) (Bcache.becomes_frame ..) rfl (hi _ hc)
      (hu hc (.inl rfl) (hp hc (h.line_of_fill hc ht)))
  | finished hc ht hb | failed hc ht hb =>
    exact .of_becomes hc (.inl rfl) hb rfl (hi _ hc)
      (hu hc (.inl rfl) (hp hc (h.line_of_filled hc ht)))
  | droppedFill hc ht hb =>
    exact .of_becomes hc (.inl rfl) hb rfl (hi _ hc)
      (hu hc (.inl rfl) (hp hc (h.line_of_fill hc ht)))
  | stored hc _ _ _ hpi hb =>
    exact .of_becomes hc (.inl rfl) hb rfl (hi _ hc) (hu hc (.inl rfl) hpi)
  | begun hc _ hd hb =>
    exact .of_becomes hc (.inl rfl) hb rfl (hi _ hc)
      fun _ => ⟨rfl, by simp [hd], rfl⟩
  | submitted | answered => exact .of_cache rfl
  | @cleaned _ _ b _ _ _ hc ht hb | @kept _ _ b _ _ _ _ hc ht hb
  | @droppedWriteback _ _ b _ _ _ _ hc ht hb =>
    have hio := ((h.ready b hc).guards.slot_of_hold (congrArg Task.hold ht)).1
    exact .of_becomes hc (.inl rfl) hb rfl (hi _ hc) fun _ => ⟨rfl, by simp [hio], rfl⟩

end Keeps

/-! ### References -/

section Refs

variable {s s' : Sys N} {b : Bcache N} {i : Fin N} {a : Act N} {r : BlockRef N} {t : Nat}

theorem Inv.pins_ne_zero (h : Inv s) (hr : r ∈ s.refs) (b : Bcache N) (hc : s.cache = some b) :
    (b.table.slots r.slot).pins ≠ 0 := by
  intro hz
  exact (h.ready b hc).pins.not_mem hz r hr rfl

theorem Inv.keyOf_ref (h : Inv s) (hr : r ∈ s.refs) (hc : s.cache = some b) :
    b.table.keyOf r.slot = some r.key := by
  have ha := (h.ready b hc).pins.live r hr
  obtain ⟨hs, hkey⟩ := key?_line_eq_some.mp (Line.key?_of_answer? ha)
  simp [Cache.keyOf, hs, hkey]

theorem Inv.keeps_run {as : List (Act N)} (h : Inv s)
    (hrun : Run (fun s a s' => s.Step a s' ∧ r ∈ s.refs) s as s') : Keeps s s' r.slot := by
  induction hrun with
  | nil => exact .of_cache rfl
  | cons hst _ ih =>
    obtain ⟨hs, hr⟩ := hst
    exact (h.keeps hs (h.pins_ne_zero hr)).trans (ih (h.step hs))

theorem Sys.store_done {c : WriteCall} (hs : s.step (.advance t) = some s')
    (ht : s.tasks t = .store c) (hd : s'.tasks t = .done (.ok ())) :
    ∃ b b', s.cache = some b ∧ s'.cache = some b' ∧
      b.store c.key c.data = .ok (.ok (.ok ()), b') := by
  have hs := Sys.advance_of_step hs
  simp only [Sys.advance, ht, Option.some.injEq] at hs
  subst hs
  unfold Sys.store at hd ⊢
  split at hd
  · simp at hd
  · rename_i b hc
    split at hd
    · simp [ht] at hd
    · simp only at hd
      split at hd <;> simp at hd
    · simp at hd
    · rename_i b' hst
      exact ⟨b, b', hc, rfl, hst⟩
    · simp at hd

theorem Inv.pins_of_storesInto (h : Inv s) (hc : s.cache = some b)
    (hi : s.storesInto a = some i) : (b.table.slots i).pins = 0 := by
  unfold Sys.storesInto at hi
  split at hi
  · rename_i t s' hs
    split at hi
    · rename_i c b' ht hd hc'
      obtain ⟨b₀, b'₀, hb₀, hb'₀, hst⟩ := Sys.store_done hs ht hd
      obtain rfl := Option.mem_unique hc hb₀
      obtain rfl := Option.mem_unique hc' hb'₀
      have hm : ∀ {b₁ : Bcache N} {j : Fin N} {slot : Slot} {frame : Bytes} {filling : Bool},
          b₁.Becomes j slot frame filling b' → slot.state ≠ .free → slot.key = c.key → i = j := by
        intro b₁ j slot frame filling hb hstate hkey
        have hj := ((h.step hs).ready b' hc').lookup_eq_some (k := c.key)
          (key?_line_eq_some.mpr ⟨by rwa [hb.slot_self], by rwa [hb.slot_self]⟩)
        exact Option.mem_unique hi hj
      rcases Bcache.store_eq_ok hst with ⟨⟨e, hne⟩, -⟩ | ⟨⟨why, hne⟩, -⟩ |
        ⟨-, j, hfo, -, hp, hb⟩ | ⟨-, j, b₁, hf, -, hfr, hb⟩
      · cases hne
      · cases hne
      · rw [hm hb nofun (Cache.lookup_eq_some hfo).2]
        exact hp
      · rw [hm hb nofun rfl, ← hf.pins_eq]
        exact (((h.ready b hc).freed hf).sound j).unread hfr
    · cases hi
  · cases hi

end Refs

/-- For as long as a reference is live, its slot holds its block and the same
bytes: no thread reads into the slot, no write goes into it and nothing evicts
it. The pins of a slot are the references to it. -/
theorem ref_stable {device : Nat → Bytes} {as : List (Act N)} {s : Sys N} {b : Bcache N}
    (hrun : Run Sys.Step (Sys.boot N device) as s) (hcache : s.cache = some b) :
    (∀ i, b.table.pinsOf i = s.refs.countP (·.slot = i)) ∧
      ∀ r ∈ s.refs, b.table.keyOf r.slot = some r.key ∧
        (∀ t c token, s.tasks t = .fill c token → token.slot ≠ r.slot) ∧
        (∀ a, s.storesInto a ≠ some r.slot) ∧
        ∀ as' s', Run (fun s a s' => s.Step a s' ∧ r ∈ s.refs) s as' s' →
          ∃ b', s'.cache = some b' ∧ b'.table.keyOf r.slot = some r.key ∧
            b'.frames r.slot = b.frames r.slot := by
  have h := Inv.of_run hrun
  have hco := h.ready b hcache
  refine ⟨hco.pins.count, fun r hr => ?_⟩
  have hpins := h.pins_ne_zero hr b hcache
  have hkey := h.keyOf_ref hr hcache
  refine ⟨hkey, fun t c token htask heq => ?_, fun a hinto => ?_, fun as' s' hrun' => ?_⟩
  · obtain ⟨-, -, -, hzero, -⟩ := hco.filling_of_pending (h.line_of_fill hcache htask)
    exact hpins (heq ▸ hzero)
  · exact hpins (h.pins_of_storesInto hcache hinto)
  · obtain ⟨b', hcache', hkey', hframe⟩ := h.keeps_run hrun' b hcache
    exact ⟨b', hcache', hkey'.trans hkey, hframe⟩

/-- A reader holds a block while a write of it waits, and while another block is
read in and its future dropped. -/
theorem ref_stable_blocked_write :
    ∃ s : Sys 2, Run Sys.Step (Sys.boot 2 fun _ => [0])
      [.init fun _ => [], .readBlock 0 ⟨0, 5⟩, .advance 0, .complete 0 (.ok ()) [], .advance 0,
        .writeBlock 1 ⟨0, 5⟩ (List.replicate 4096 7), .advance 1, .readBlock 2 ⟨0, 9⟩, .advance 2,
        .drop 2 [1, 2, 3]] s ∧
      ⟨0, ⟨0, 5⟩⟩ ∈ s.refs ∧
      ∃ b, s.cache = some b ∧ b.table.pinsOf 0 = s.refs.countP (·.slot = 0) ∧
        b.table.keyOf 0 = some ⟨0, 5⟩ ∧ ∀ a, s.storesInto a ≠ some 0 := by
  refine exists_run_of_exec
    (p := fun s => ⟨0, ⟨0, 5⟩⟩ ∈ s.refs ∧ s.cache.isSome = true) (by decide +kernel)
    fun s hrun hfacts => ?_
  obtain ⟨hr, hcache⟩ := hfacts
  obtain ⟨b, hcache⟩ := Option.isSome_iff_exists.mp hcache
  obtain ⟨hpins, hrefs⟩ := ref_stable hrun hcache
  obtain ⟨hkey, -, hstores, -⟩ := hrefs _ hr
  exact ⟨hr, b, hcache, hpins 0, hkey, hstores⟩

end Qunix.BufferCache
