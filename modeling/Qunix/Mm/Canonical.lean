/-
The free lists as a function of what is free.

Coalescing is complete: no two buddies of one region are ever both free below the
highest order. So the recorded regions and the pages that are free determine the
free blocks, whatever the history, and `alloc` fails only where no aligned range
of the size asked for is free. Merging stops at the edge of a region, so the free
pages alone do not say which blocks they form.
-/

import Qunix.Mm.Runs

namespace Qunix.Mm

open Qunix.Lib Function

namespace Buddy

variable {b b' : Buddy} {live : List Block} {lists : Nat → List Nat} {pa o x : Nat}

/-- The block at `pa` is on the free list of order `o`. -/
def FreeAt (b : Buddy) (pa o : Nat) : Prop :=
  o ≤ maxOrder ∧ ∃ l, Linked b.next b.prev NIL NIL (b.freeLists o) l ∧ pa ∈ l

/-- The page at `x` lies in a free block. -/
def FreePage (b : Buddy) (x : Nat) : Prop :=
  pageSize ∣ x ∧ ∃ pa o, b.FreeAt pa o ∧ pa ≤ x ∧ x < pa + blockSize o

/-- The `2 ^ o` pages from `x` on are aligned, in one region and free. -/
def FreeRange (b : Buddy) (x o : Nat) : Prop :=
  blockSize o ∣ x ∧ (∃ r ∈ b.regions, r.1 ≤ x ∧ x + blockSize o ≤ r.2) ∧
    ∀ y, pageSize ∣ y → x ≤ y → y < x + blockSize o → b.FreePage y

namespace Sound

variable (h : Sound b live lists)

include h

theorem freeAt_iff : b.FreeAt pa o ↔ ⟨pa, o⟩ ∈ freeBlocks lists := by
  rw [mem_freeBlocks]
  constructor
  · rintro ⟨ho, l, hl, hmem⟩
    exact ⟨ho, hl.unique (h.linked o ho) ▸ hmem⟩
  · rintro ⟨ho, hmem⟩
    exact ⟨ho, _, h.linked o ho, hmem⟩

theorem freePage_iff :
    b.FreePage x ↔ pageSize ∣ x ∧ ∃ c ∈ freeBlocks lists, c.Covers pageSize x := by
  refine and_congr_right fun _ => ⟨?_, ?_⟩
  · rintro ⟨pa, o, hf, hlo, hhi⟩
    exact ⟨⟨pa, o⟩, h.freeAt_iff.mp hf, hlo, by rwa [Block.size_pageSize]⟩
  · rintro ⟨⟨pa, o⟩, hmem, hlo, hhi⟩
    exact ⟨pa, o, h.freeAt_iff.mpr hmem, hlo, by rwa [Block.size_pageSize] at hhi⟩

/-- A page is free unless a client holds it. -/
theorem freePage_iff_not_live :
    b.FreePage x ↔ pageSize ∣ x ∧ (∃ r ∈ b.regions, r.1 ≤ x ∧ x < r.2) ∧
      ∀ c ∈ live, ¬ c.Covers pageSize x := by
  rw [h.freePage_iff]
  refine and_congr_right fun _ => ⟨?_, ?_⟩
  · rintro ⟨c, hc, hcx⟩
    obtain ⟨r, hr, hlo, hhi⟩ := h.packing.inside c (List.mem_append_right _ hc)
    refine ⟨⟨r, hr, hlo.trans hcx.1, Nat.lt_of_lt_of_le hcx.2 hhi⟩, fun d hd hdx => ?_⟩
    have := (List.pairwise_append.mp h.packing.apart).2.2 d hd c hc
    exact this.not_covers hdx hcx
  · rintro ⟨⟨r, hr, hlo, hhi⟩, hl⟩
    obtain ⟨c, hc, hcx⟩ := h.covers r hr x hlo hhi
    rcases List.mem_append.mp hc with hc | hc
    · exact absurd hcx (hl c hc)
    · exact ⟨c, hc, hcx⟩

theorem packing_free :
    Packing pageSize b.regions (freeBlocks lists) where
  aligned c hc := h.packing.aligned c (List.mem_append_right _ hc)
  inside c hc := h.packing.inside c (List.mem_append_right _ hc)
  apart := (List.pairwise_append.mp h.packing.apart).2.1

/-- The whole of an aligned free range lies in one free block. -/
theorem block_of_freeRange (hc : Coalesced b.regions lists)
    (ho : o ≤ maxOrder) (hr : b.FreeRange x o) : ∃ c ∈ freeBlocks lists, o ≤ c.order := by
  obtain ⟨hdvd, hin, hf⟩ := hr
  rw [blockSize_eq] at hdvd hin hf
  obtain ⟨c, hmem, hoc, -⟩ := hc.exists_block pageSize_pos h.packing_free ho hdvd hin
    fun y hy hxy hyx => (h.freePage_iff.mp (hf y hy hxy hyx)).2
  exact ⟨c, hmem, hoc⟩

/-- The lowest part of a free block is an aligned free range. -/
theorem freeRange_of_block {c : Block} (hc : c ∈ freeBlocks lists)
    (ho : o ≤ c.order) : b.FreeRange c.base o := by
  have hle : blockSize o ∣ blockSize c.order := by
    rw [blockSize_eq, blockSize_eq]
    exact Nat.mul_dvd_mul_left _ (Nat.pow_dvd_pow 2 ho)
  have hle' := Nat.le_of_dvd (blockSize_pos _) hle
  have ha := h.packing_free.aligned c hc
  simp only [Block.Aligned, Block.size_pageSize] at ha
  obtain ⟨r, hr, hlo, hhi⟩ := h.packing_free.inside c hc
  rw [Block.size_pageSize] at hhi
  refine ⟨hle.trans ha, ⟨r, hr, hlo, by omega⟩, fun y hy hcy hyc => ?_⟩
  exact h.freePage_iff.mpr ⟨hy, c, hc, hcy, by rw [Block.size_pageSize]; omega⟩

/-- `alloc` refuses exactly when no aligned range of the size is free. -/
theorem alloc_none_iff (hc : Coalesced b.regions lists)
    (ho : o ≤ maxOrder) : (∃ b', b.alloc o = .ok (none, b')) ↔ ¬ ∃ x, b.FreeRange x o := by
  by_cases hn : ∀ n, o ≤ n → n ≤ maxOrder → lists n = []
  · refine iff_of_true ⟨b, h.alloc_none hn⟩ ?_
    rintro ⟨x, hr⟩
    obtain ⟨c, hmem, hoc⟩ := h.block_of_freeRange hc ho hr
    obtain ⟨hmax, hl⟩ := mem_freeBlocks.mp hmem
    rw [hn c.order hoc hmax] at hl
    cases hl
  · push Not at hn
    obtain ⟨n, hlo, hhi, hli⟩ := hn
    obtain ⟨a, ha⟩ := List.exists_mem_of_ne_nil _ hli
    refine iff_of_false ?_ (not_not.mpr
      ⟨a, h.freeRange_of_block (c := ⟨a, n⟩) (mem_freeBlocks.mpr ⟨hhi, ha⟩) hlo⟩)
    rintro ⟨b', hb'⟩
    obtain ⟨pa, b'', lists', hal, -⟩ := h.alloc_some hlo hhi hli
    rw [hal] at hb'
    cases hb'

/-- A range that is recorded is carved into as few blocks as it can be. -/
theorem addRegion_sound {start len : Nat}
    (hf : ∀ r ∈ b.regions, min r.2 (start + len) ≤ max r.1 start)
    (hn : ∀ r ∈ b.regions, r.1 < r.2) (hok : b.addRegion start len = .ok b') :
    ∃ lists', Sound b' live lists' ∧ (Coalesced b.regions lists → Coalesced b'.regions lists') ∧
      (Honest b lists → Honest b' lists') ∧
      ∀ r ∈ b'.regions, r ∈ b.regions ∨ (start ≤ r.1 ∧ r.1 < r.2 ∧ r.2 ≤ start + len) := by
  rw [addRegion_eq] at hok
  cases hwh : wholePages start len with
  | none =>
    rw [hwh] at hok
    obtain ⟨bytes, -, hok⟩ := bind_eq_ok hok
    cases hok
    exact ⟨lists, h.congr rfl rfl rfl rfl rfl, id, id, fun r hr => .inl hr⟩
  | some p =>
    rw [hwh] at hok
    obtain ⟨ha, hla, hs, -, hlt, hl, -, hw⟩ := wholePages_eq_some hwh
    obtain ⟨slop, -, hok⟩ := bind_eq_ok hok
    obtain ⟨edge, -, hok⟩ := bind_eq_ok hok
    have hso : Sound { b with edgeDroppedBytes := edge } live lists :=
      h.congr rfl rfl rfl rfl rfl
    dsimp only at hok
    split at hok
    · obtain ⟨bytes, -, hok⟩ := bind_eq_ok hok
      obtain ⟨count, -, hok⟩ := bind_eq_ok hok
      cases hok
      exact ⟨lists, h.congr rfl rfl rfl rfl rfl, id, id, fun r hr => .inl hr⟩
    · obtain ⟨b'', lists', hrun, hs', hre, -, hc, hh⟩ :=
        hso.carve_new ha hla hlt (by omega) fun r hr => by
          have := hf r hr
          have := hn r hr
          omega
      obtain rfl : b'' = b' := Except.ok.inj (hrun.symm.trans hok)
      refine ⟨lists', hs', hc, hh, fun r hr => ?_⟩
      rw [hre] at hr
      rcases List.mem_append.mp hr with hr | hr
      · exact .inl hr
      · rw [List.mem_singleton.mp hr]
        exact .inr ⟨hs, hlt, hl⟩

end Sound

end Buddy

namespace Sys

variable {s t : Sys} {call : Call}

/-- The lists are sound and merged. -/
def Canonical (s : Sys) : Prop :=
  ∃ lists, s.buddy.Sound s.live lists ∧ Buddy.Coalesced s.buddy.regions lists

theorem Canonical.step (hinv : s.Inv) (h : s.Canonical) (hst : s.step call = some t) :
    t.Canonical := by
  obtain ⟨lists, hs, hco⟩ := h
  obtain ⟨hadm, hp⟩ := step_eq_some.mp hst
  cases call with
  | addRegion start len =>
    obtain ⟨b', hadd, heq⟩ := bind_eq_ok hp
    cases heq
    obtain ⟨lists', hs', hc', -⟩ :=
      hs.addRegion_sound (fresh_of_apart hinv.regions hadm.2.2)
        (fun r hr => (hinv.regions r hr).1) hadd
    exact ⟨lists', hs', hc' hco⟩
  | alloc order =>
    obtain ⟨⟨popped, b'⟩, ha, heq⟩ := bind_eq_ok hp
    rcases hs.alloc_cases ha with ⟨rfl, rfl⟩ | ⟨pa, lists', rfl, hs', -, hc', -⟩
    · cases heq
      exact ⟨lists, hs, hco⟩
    · cases heq
      exact ⟨lists', hs', hc' hco⟩
  | free pa order =>
    obtain ⟨b', hf, heq⟩ := bind_eq_ok hp
    cases heq
    obtain ⟨b'', lists', hf', hs', -, -, hc', -⟩ := (hs.takeLive hadm).free_ok
    rw [hf'] at hf
    cases hf
    exact ⟨lists', hs', hc' hco⟩
  | write addr value =>
    cases hp
    obtain ⟨-, c, hc, hlo, hhi, htag⟩ := hadm
    exact ⟨lists, ⟨hs.toPartition.write hc hlo (by omega) htag, hs.orders,
      hs.freeBytes, hs.regionsApart, hs.regionsLimit⟩, hco⟩

theorem Canonical.of_run {mem : Nat → Nat} {calls : List Call}
    (hrun : Run Step (Sys.start mem) calls s) : s.Canonical := by
  have hb : s.Inv ∧ s.Canonical := by
    refine hrun.invariant (p := fun s => s.Inv ∧ s.Canonical) ?_ ⟨Inv.init mem, ?_⟩
    · rintro s call t ⟨hinv, hc⟩ hst
      exact ⟨hinv.step hst, hc.step hinv hst⟩
    · obtain ⟨lists, hs⟩ := (Inv.init mem).sound
      refine ⟨lists, hs, ?_⟩
      rintro o z - - ⟨r, hr, -⟩
      cases hr
  exact hb.2

/-- The recorded regions and the free pages determine the free blocks, and `alloc`
refuses an order only when no aligned range of its size, inside one region, is
free. -/
theorem free_blocks_canonical {mem mem' : Nat → Nat} {calls calls' : List Call} {s s' : Sys}
    (hrun : Run Step (Sys.start mem) calls s) (hrun' : Run Step (Sys.start mem') calls' s') :
    ((∀ r, r ∈ s.buddy.regions ↔ r ∈ s'.buddy.regions) →
      (∀ x, s.buddy.FreePage x ↔ s'.buddy.FreePage x) →
      ∀ pa o, s.buddy.FreeAt pa o ↔ s'.buddy.FreeAt pa o) ∧
    ∀ o ≤ maxOrder, (∃ b', s.buddy.alloc o = .ok (none, b')) ↔ ¬ ∃ x, s.buddy.FreeRange x o := by
  obtain ⟨lists, hsound, hcoal⟩ := Canonical.of_run hrun
  obtain ⟨lists', hsound', hcoal'⟩ := Canonical.of_run hrun'
  refine ⟨fun hregions hpages pa o => ?_, fun o ho => hsound.alloc_none_iff hcoal ho⟩
  have horders : ∀ {l : Nat → List Nat}, ∀ c ∈ freeBlocks l, c.order ≤ maxOrder :=
    fun c hc => (mem_freeBlocks.mp hc).1
  have hcov : ∀ x, pageSize ∣ x → ((∃ c ∈ freeBlocks lists, c.Covers pageSize x) ↔
      ∃ c ∈ freeBlocks lists', c.Covers pageSize x) := by
    intro x hx
    have := hpages x
    rwa [hsound.freePage_iff, hsound'.freePage_iff, and_iff_right hx, and_iff_right hx] at this
  rw [hsound.freeAt_iff, hsound'.freeAt_iff]
  exact ⟨hcoal.eq_of_covers pageSize_pos hsound.packing_free hcoal' hsound'.packing_free hregions
      horders horders hcov,
    hcoal'.eq_of_covers pageSize_pos hsound'.packing_free hcoal hsound.packing_free
      (fun r => (hregions r).symm) horders horders fun x hx => (hcov x hx).symm⟩

/-- Systems with the same clients' blocks over the same memory have the same free
pages, however the memory was recorded. -/
theorem Canonical.freePage_congr {s s' : Sys} (h : s.Canonical) (h' : s'.Canonical)
    (hl : s.live = s'.live)
    (hr : ∀ x, (∃ r ∈ s.buddy.regions, r.1 ≤ x ∧ x < r.2) ↔
      ∃ r ∈ s'.buddy.regions, r.1 ≤ x ∧ x < r.2) (x : Nat) :
    s.buddy.FreePage x ↔ s'.buddy.FreePage x := by
  obtain ⟨lists, hs, -⟩ := h
  obtain ⟨lists', hs', -⟩ := h'
  rw [hs.freePage_iff_not_live, hs'.freePage_iff_not_live, hl, hr x]

/-- Two histories that end with the second page taken. -/
theorem free_blocks_canonical_two_histories :
    ∃ s, Run Step (Sys.start fun _ => 0)
      [.addRegion 0 16384, .alloc 0, .alloc 0, .free 0 0] s ∧
    ∃ s', Run Step (Sys.start fun _ => 0)
      [.addRegion 0 16384, .alloc 1, .alloc 0, .alloc 0, .free 8192 0, .free 0 1, .free 12288 0,
        .alloc 0, .alloc 0, .free 0 0] s' ∧
    (∀ pa o, s.buddy.FreeAt pa o ↔ s'.buddy.FreeAt pa o) ∧
      ((∃ b', s.buddy.alloc 2 = .ok (none, b')) ↔ ¬ ∃ x, s.buddy.FreeRange x 2) := by
  refine exists_run_of_exec
    (p := fun s => s.buddy.regions = [(0, 16384)] ∧ s.live = [⟨4096, 0⟩])
    (by decide +kernel) fun s hrun hfacts => ?_
  refine exists_run_of_exec
    (p := fun s => s.buddy.regions = [(0, 16384)] ∧ s.live = [⟨4096, 0⟩])
    (by decide +kernel) fun s' hrun' hfacts' => ?_
  obtain ⟨hregions, hlive⟩ := hfacts
  obtain ⟨hregions', hlive'⟩ := hfacts'
  have hsame := hregions.trans hregions'.symm
  obtain ⟨hblocks, hrefuses⟩ := free_blocks_canonical hrun hrun'
  refine ⟨hblocks (fun r => by rw [hsame]) ?_, hrefuses 2 (by decide)⟩
  exact (Canonical.of_run hrun).freePage_congr (Canonical.of_run hrun')
    (hlive.trans hlive'.symm) fun x => by rw [hsame]

/-- Two pages recorded as one region and as two: the same pages are free, but in
one block of order 1 there and in two of order 0 here. -/
theorem free_blocks_depend_on_regions :
    ∃ s, Run Step (Sys.start fun _ => 0) [.addRegion 0 8192] s ∧
    ∃ s', Run Step (Sys.start fun _ => 0) [.addRegion 0 4096, .addRegion 4096 4096] s' ∧
    (∀ x, s.buddy.FreePage x ↔ s'.buddy.FreePage x) ∧
      s.buddy.FreeAt 0 1 ∧ ¬ s'.buddy.FreeAt 0 1 := by
  refine exists_run_of_exec
    (p := fun s => s.buddy.regions = [(0, 8192)] ∧ s.live = [] ∧ s.buddy.freeLists 1 = 0 ∧
      s.buddy.next 0 = NIL ∧ s.buddy.prev 0 = NIL)
    (by decide +kernel) fun s hrun hfacts => ?_
  refine exists_run_of_exec
    (p := fun s => s.buddy.regions = [(0, 4096), (4096, 8192)] ∧ s.live = [] ∧
      s.buddy.freeLists 1 = NIL)
    (by decide +kernel) fun s' hrun' hfacts' => ?_
  obtain ⟨hregions, hlive, hhead, hnext, hprev⟩ := hfacts
  obtain ⟨hregions', hlive', hhead'⟩ := hfacts'
  refine ⟨?_, ⟨by decide, [0], ⟨hhead, by decide, hprev, hnext⟩, List.mem_cons_self⟩, ?_⟩
  · refine (Canonical.of_run hrun).freePage_congr (Canonical.of_run hrun')
      (hlive.trans hlive'.symm) fun x => ?_
    rw [hregions, hregions']
    simp only [List.mem_cons, List.not_mem_nil, or_false, exists_eq_left, exists_eq_or_imp]
    omega
  · rintro ⟨-, l, hl, hmem⟩
    rw [hl.head_eq_nil_iff.mp hhead'] at hmem
    cases hmem

end Sys

end Qunix.Mm
