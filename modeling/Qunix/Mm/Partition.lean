/-
Allocation and freeing.

`Partition b held lists` is the allocator's state in the middle of a call: the
blocks on the free lists and the blocks outside them tile the recorded regions,
and no block outside the lists carries a free tag. Splitting and coalescing
keep it, so a call that starts and ends between two such states only has to
account for the block it hands out or takes back and for the free bytes.
-/

import Qunix.Mm.FreeLists

namespace Qunix.Mm

open Qunix.Lib Function

namespace Buddy

variable {b b' : Buddy} {held : List Block} {lists : Nat → List Nat} {pa o a : Nat}
  {l₁ l₂ : List Nat}

/-- Listed and held blocks tile the regions, and the held ones are not tagged
free. -/
structure Partition (b : Buddy) (held : List Block) (lists : Nat → List Nat) : Prop
    extends Threaded b held lists where
  untagged : Untagged b held
  covers : ∀ r ∈ b.regions, ∀ x, r.1 ≤ x → x < r.2 →
    ∃ c ∈ held ++ freeBlocks lists, c.Covers pageSize x

/-- A call changed neither the regions nor a counter. -/
structure Frame (b b' : Buddy) : Prop where
  regions : b'.regions = b.regions
  counters : b'.counters = b.counters
  freeBytes : b'.freeBytes = b.freeBytes

theorem Frame.refl (b : Buddy) : Frame b b := ⟨rfl, rfl, rfl⟩

theorem Frame.trans {c : Buddy} (h : Frame b b') (h' : Frame b' c) : Frame b c :=
  ⟨h'.regions.trans h.regions, h'.counters.trans h.counters, h'.freeBytes.trans h.freeBytes⟩

theorem frame_push : Frame b (b.push pa o) := ⟨push_regions, push_counters, push_freeBytes⟩

theorem Detached.frame (h : Detached b b' a o) : Frame b b' :=
  ⟨h.regions, h.counters, h.freeBytes⟩

/-- A block and its buddy are the halves of one aligned cell. -/
theorem buddy_halves (h : Block.Aligned pageSize ⟨pa, o⟩) :
    ∃ z, blockSize (o + 1) ∣ z ∧
      ((pa = z ∧ pa ^^^ blockSize o = z + blockSize o) ∨
        (pa = z + blockSize o ∧ pa ^^^ blockSize o = z)) := by
  simp only [Block.Aligned, Block.size_pageSize, blockSize_eq_two_pow] at h
  rw [blockSize_eq_two_pow, blockSize_eq_two_pow]
  rcases half_cases h with hz | ⟨z, rfl, hz⟩
  · exact ⟨pa, hz, .inl ⟨rfl, xor_two_pow_of_dvd hz⟩⟩
  · exact ⟨z, hz, .inr ⟨rfl, add_two_pow_xor hz⟩⟩

variable {z : Nat}

theorem lower_xor (h : blockSize (o + 1) ∣ z) : z ^^^ blockSize o = z + blockSize o := by
  rw [blockSize_eq_two_pow] at h
  rw [blockSize_eq_two_pow]
  exact xor_two_pow_of_dvd h

theorem upper_xor (h : blockSize (o + 1) ∣ z) :
    (z + blockSize o) ^^^ blockSize o = z := by
  rw [blockSize_eq_two_pow] at h
  rw [blockSize_eq_two_pow]
  exact add_two_pow_xor h

/-- No two buddies of one region are both on the list of an order below the
highest. -/
abbrev Coalesced (regions : List (Nat × Nat)) (lists : Nat → List Nat) : Prop :=
  Merged pageSize maxOrder regions (freeBlocks lists)

/-- A block may go to its list unless its buddy, in the same region, is on it. -/
theorem Coalesced.push {rs : List (Nat × Nat)} (h : Coalesced rs lists) (ho : o ≤ maxOrder)
    (hb : o < maxOrder → ∀ z, blockSize (o + 1) ∣ z →
      (∃ r ∈ rs, r.1 ≤ z ∧ z + blockSize (o + 1) ≤ r.2) →
      (pa = z ∨ pa = z + blockSize o) → pa ^^^ blockSize o ∉ lists o) :
    Coalesced rs (update lists o (pa :: lists o)) := by
  refine Merged.subset ?_ (freeBlocks_cons_perm ho).subset
  refine Merged.cons pageSize_pos h fun hlt z hz hin => ?_
  rw [← blockSize_eq] at hz hin ⊢
  constructor
  · rintro rfl hmem
    have := hb hlt pa hz hin (.inl rfl)
    rw [lower_xor hz] at this
    exact this (mem_freeBlocks.mp hmem).2
  · rintro hpa hmem
    have := hb hlt z hz hin (.inr hpa)
    simp only at hpa
    rw [hpa, upper_xor hz] at this
    exact this (mem_freeBlocks.mp hmem).2

namespace Partition

theorem tiling (h : Partition b held lists) :
    Tiling pageSize b.regions (held ++ freeBlocks lists) where
  toPacking := h.packing
  covers := h.covers

theorem covers_of_perm (h : Partition b held lists) {blocks : List Block}
    (hp : (held ++ freeBlocks lists).Perm blocks) (hr : b'.regions = b.regions) :
    ∀ r ∈ b'.regions, ∀ x, r.1 ≤ x → x < r.2 → ∃ c ∈ blocks, c.Covers pageSize x := by
  rw [hr]
  exact (h.tiling.perm hp).covers

theorem push (h : Partition b (⟨pa, o⟩ :: held) lists) (ho : o ≤ maxOrder) :
    Partition (b.push pa o) held (update lists o (pa :: lists o)) where
  toThreaded := h.toThreaded.push ho
  untagged := h.untagged_push ho fun c hc => h.untagged c (by simp [hc])
  covers := h.covers_of_perm (Threaded.perm_push ho) push_regions

theorem detach (h : Partition b held lists) (ho : o ≤ maxOrder) (hl : lists o = l₁ ++ a :: l₂)
    (hd : Detached b b' a o) : Partition b' (⟨a, o⟩ :: held) (update lists o (l₁ ++ l₂)) where
  toThreaded := h.toThreaded.detach ho hl hd
  untagged := h.untagged_detach ho (by simp [hl]) hd h.untagged
  covers := h.covers_of_perm (Threaded.perm_detach ho hl) hd.regions

/-! ### Splitting -/

/-- One turn of the splitting loop: the upper half of the block in hand goes to
its list. -/
theorem split (h : Partition b (⟨pa, o + 1⟩ :: held) lists) (ho : o ≤ maxOrder) :
    Partition (b.push (pa + blockSize o) o) (⟨pa, o⟩ :: held)
      (update lists o ((pa + blockSize o) :: lists o)) := by
  have hs : Tiling pageSize b.regions
      ((⟨pa + blockSize o, o⟩ :: ⟨pa, o⟩ :: held) ++ freeBlocks lists) := by
    have := h.tiling.split
    rw [← blockSize_eq] at this
    exact this.perm (List.Perm.swap _ _ _)
  have ht : Threaded b (⟨pa + blockSize o, o⟩ :: ⟨pa, o⟩ :: held) lists :=
    ⟨hs.toPacking, h.linked, h.tagged, h.nonempty⟩
  have hu : Untagged b (⟨pa, o⟩ :: held) := by
    intro c hc
    rcases List.mem_cons.mp hc with rfl | hc
    · exact h.untagged ⟨pa, o + 1⟩ (by simp)
    · exact h.untagged c (by simp [hc])
  refine ⟨ht.push ho, ht.untagged_push ho hu, ?_⟩
  rw [push_regions]
  exact (hs.perm (Threaded.perm_push ho)).covers

/-- The lower half stays in hand, so the upper half's buddy is not free. -/
theorem coalesced_split (h : Partition b (⟨pa, o + 1⟩ :: held) lists) (ho : o ≤ maxOrder)
    (hc : Coalesced b.regions lists) :
    Coalesced b.regions (update lists o ((pa + blockSize o) :: lists o)) := by
  have hdvd := h.packing.aligned ⟨pa, o + 1⟩ (by simp)
  simp only [Block.Aligned, Block.size_pageSize] at hdvd
  refine hc.push ho fun _ z _ _ _ hmem => ?_
  rw [upper_xor hdvd] at hmem
  exact h.held_ne_listed (c := ⟨pa, o + 1⟩) (by simp) ho hmem rfl

/-- The splitting loop hands out the lowest block of the order asked for. -/
theorem splitDown {order source : Nat} (h : Partition b (⟨pa, source⟩ :: held) lists)
    (ho : order ≤ source) (hs : source ≤ maxOrder) :
    ∃ lists', Partition (b.splitDown pa order source) (⟨pa, order⟩ :: held) lists' ∧
      Frame b (b.splitDown pa order source) ∧
      listedBytes lists' + blockSize order = listedBytes lists + blockSize source ∧
      (Coalesced b.regions lists → Coalesced b.regions lists') ∧
      (Honest b lists → Honest (b.splitDown pa order source) lists') := by
  induction source generalizing b lists with
  | zero =>
    obtain rfl : order = 0 := by omega
    exact ⟨lists, h, Frame.refl b, rfl, id, id⟩
  | succ source ih =>
    by_cases hlt : order < source + 1
    · obtain ⟨lists', hp, hf, hb, hco, hho⟩ :=
        ih (h.split (by omega)) (by omega) (by omega)
      have hpa : pageSize ∣ pa + blockSize source :=
        Nat.dvd_add (h.dvd_of_mem (c := ⟨pa, source + 1⟩) (by simp)) (pageSize_dvd_blockSize _)
      rw [Buddy.splitDown, if_pos hlt]
      refine ⟨lists', hp, frame_push.trans hf, ?_, fun hc => ?_, fun hh => ?_⟩
      · rw [hb, listedBytes_push (by omega), blockSize_succ]
        omega
      · rw [push_regions] at hco
        exact hco (h.coalesced_split (by omega) hc)
      · exact hho (hh.push (by omega) hpa (h.head_dvd (by omega)))
    · obtain rfl : order = source + 1 := by omega
      rw [Buddy.splitDown, if_neg hlt]
      exact ⟨lists, h, Frame.refl b, rfl, id, id⟩

/-! ### Coalescing -/

/-- Two halves in hand become one block. The upper half's tag no longer
matters: it is not a head any more. -/
theorem merge {x : Nat} (h : Partition b (⟨x, o⟩ :: ⟨x + blockSize o, o⟩ :: held) lists)
    (hdvd : blockSize (o + 1) ∣ x)
    (hi : ∃ r ∈ b.regions, r.1 ≤ x ∧ x + blockSize (o + 1) ≤ r.2) :
    Partition b (⟨x, o + 1⟩ :: held) lists := by
  have ht := h.tiling
  rw [blockSize_eq] at ht hdvd hi
  have hm := ht.merge hdvd hi
  refine ⟨⟨hm.toPacking, h.linked, h.tagged, h.nonempty⟩, fun c hc => ?_, hm.covers⟩
  rcases List.mem_cons.mp hc with rfl | hc
  · exact h.untagged ⟨x, o⟩ (by simp)
  · exact h.untagged c (by simp [hc])

/-- Only the words, the heads, the mask and the regions matter. -/
theorem congr (h : Partition b held lists) (hmem : b'.mem = b.mem)
    (hh : b'.freeLists = b.freeLists) (hm : b'.nonempty = b.nonempty)
    (hr : b'.regions = b.regions) : Partition b' held lists := by
  cases b
  subst hmem hh hm hr
  exact ⟨⟨h.packing, h.linked, h.tagged, h.nonempty⟩, h.untagged, h.covers⟩

theorem perm {held' : List Block} (h : Partition b held lists) (hp : held.Perm held') :
    Partition b held' lists :=
  ⟨⟨h.packing.perm (hp.append_right _), h.linked, h.tagged, h.nonempty⟩,
    fun c hc => h.untagged c (hp.mem_iff.mpr hc), (h.tiling.perm (hp.append_right _)).covers⟩

section Buddies

variable {r : Nat × Nat}

/-- A free buddy is taken off its list and joined with the block in hand. -/
theorem merge_buddy (h : Partition b (⟨pa, o⟩ :: held) lists) (ho : o ≤ maxOrder)
    (hr : r ∈ b.regions) (hlo : r.1 ≤ pa) (hhi : pa + blockSize o ≤ r.2)
    (hblo : r.1 ≤ pa ^^^ blockSize o) (hbhi : (pa ^^^ blockSize o) + blockSize o ≤ r.2)
    (hmem : pa ^^^ blockSize o ∈ lists o) :
    ∃ z b' lists', z = min pa (pa ^^^ blockSize o) ∧
      b.unlink (pa ^^^ blockSize o) o = .ok (true, b') ∧
      Partition b' (⟨z, o + 1⟩ :: held) lists' ∧ Frame b b' ∧
      r.1 ≤ z ∧ z + blockSize (o + 1) ≤ r.2 ∧ listedBytes lists = blockSize o + listedBytes lists' ∧
      freeBlocks lists' ⊆ freeBlocks lists ∧ (Honest b lists → Honest b' lists') := by
  obtain ⟨z, hz, hha⟩ := buddy_halves (h.packing.aligned ⟨pa, o⟩ (by simp))
  have hmin : z = min pa (pa ^^^ blockSize o) := by
    omega
  have hzin : r.1 ≤ z ∧ z + blockSize (o + 1) ≤ r.2 := by
    rw [blockSize_succ]
    omega
  obtain ⟨b', hu, hd⟩ := h.unlink_eq ho hmem
  obtain ⟨l₁, l₂, hl⟩ := List.append_of_mem hmem
  have hb := h.detach ho hl hd
  refine ⟨z, b', _, hmin, hu, merge ?_ hz ⟨r, hd.regions ▸ hr, hzin⟩, hd.frame, hzin.1, hzin.2,
    listedBytes_remove ho hl,
    fun c hc => (freeBlocks_perm ho hl).mem_iff.mpr (List.mem_cons_of_mem _ hc),
    fun hh => hh.detach hl hd⟩
  rcases hha with ⟨hpa, hbu⟩ | ⟨hpa, hbu⟩
  · rw [hbu, hpa] at hb
    exact hb.perm (List.Perm.swap _ _ _)
  · rw [hbu, hpa] at hb
    exact hb

/-- A buddy inside the region starts a block; if that block is not free at this
order it does not carry the tag. -/
theorem unlink_buddy_of_not_mem (h : Partition b (⟨pa, o⟩ :: held) lists) (ho : o ≤ maxOrder)
    (hr : r ∈ b.regions) (hblo : r.1 ≤ pa ^^^ blockSize o) (hbhi : pa ^^^ blockSize o < r.2)
    (hmem : pa ^^^ blockSize o ∉ lists o) : b.unlink (pa ^^^ blockSize o) o = .ok (false, b) := by
  obtain ⟨z, hz, hh⟩ := buddy_halves (h.packing.aligned ⟨pa, o⟩ (by simp))
  rw [blockSize_eq] at hz
  rw [blockSize_eq o] at hh
  obtain ⟨c, hc, hb, -⟩ :=
    h.tiling.buddy_base (b := ⟨pa, o⟩) pageSize_pos (by simp) hr (blockSize_eq o ▸ hblo)
      (blockSize_eq o ▸ hbhi) hz hh
  have htag : b.word (pa ^^^ blockSize o) offTag ≠ freeTag (pa ^^^ blockSize o) o := by
    rw [blockSize_eq, ← hb] at hmem ⊢
    exact fun htag => hmem ((h.tag_iff h.untagged ho hc).mp htag)
  exact if_pos htag

/-- The merge loop ends with a block around the one it started from, whose own
buddy is not free. -/
theorem coalesce (levels : Nat) (h : Partition b (⟨pa, o⟩ :: held) lists)
    (hl : o + levels = maxOrder) (hr : r ∈ b.regions) (hlo : r.1 ≤ pa)
    (hhi : pa + blockSize o ≤ r.2) :
    ∃ pa' o' b' lists', b.coalesce r.1 r.2 pa o levels = .ok (pa', o', b') ∧
      Partition b' (⟨pa', o'⟩ :: held) lists' ∧ Frame b b' ∧ o' ≤ maxOrder ∧
      listedBytes lists' + blockSize o' = listedBytes lists + blockSize o ∧
      freeBlocks lists' ⊆ freeBlocks lists ∧ r.1 ≤ pa' ∧ pa' < r.2 ∧
      (o' < maxOrder → r.1 ≤ pa' ^^^ blockSize o' → (pa' ^^^ blockSize o') + blockSize o' ≤ r.2 →
        pa' ^^^ blockSize o' ∉ lists' o') ∧ (Honest b lists → Honest b' lists') := by
  have hpos := blockSize_pos o
  induction levels generalizing b lists pa o with
  | zero =>
    exact ⟨pa, o, b, lists, rfl, h, Frame.refl b, by omega, rfl, List.Subset.refl _, hlo, by omega,
      fun hlt => by omega, id⟩
  | succ levels ih =>
    have ho : o ≤ maxOrder := by omega
    rw [Buddy.coalesce]
    split_ifs with hin
    · exact ⟨pa, o, b, lists, rfl, h, Frame.refl b, ho, rfl, List.Subset.refl _, hlo, by omega,
        fun _ hblo hbhi => by omega, id⟩
    · push Not at hin
      obtain ⟨hblo, hbhi, hbf⟩ := hin
      by_cases hmem : pa ^^^ blockSize o ∈ lists o
      · obtain ⟨z, b', lists', hmin, hu, hm, hf, hzlo, hzhi, hb, hsub,
            hh⟩ := h.merge_buddy ho hr hlo hhi hblo (by omega) hmem
        obtain ⟨pa', o', b'', lists'', hrun, hp, hf', ho', hb', hsub', hlo', hhi',
          hbu', hh'⟩ := ih hm (by omega) (hf.regions ▸ hr) hzlo hzhi (blockSize_pos _)
        refine ⟨pa', o', b'', lists'', ?_, hp, hf.trans hf', ho', ?_,
          List.Subset.trans hsub' hsub, hlo', hhi', hbu', hh' ∘ hh⟩
        · rw [hu, ← hmin]
          exact hrun
        · rw [hb', hb, blockSize_succ]
          omega
      · refine ⟨pa, o, b, lists, ?_, h, Frame.refl b, ho, rfl, List.Subset.refl _, hlo, by omega,
          fun _ _ _ => hmem, id⟩
        rw [h.unlink_buddy_of_not_mem ho hr hblo hbhi hmem]
        rfl

end Buddies

/-! ### The double-free scan -/

variable {r : Nat × Nat} {c : Block} {addr value : Nat}

variable (h : Partition b held lists)

include h

/-- No block around a held block is on the list of its order. -/
theorem containing_tag_ne {z : Nat} (hc : c ∈ held) (hr : r ∈ b.regions) (ho : o ≤ maxOrder)
    (hlo : r.1 ≤ z) (hhi : z < r.2) (hdvd : blockSize o ∣ z) (hzc : z ≤ c.base)
    (hcz : c.base < z + blockSize o) :
    b.word z offTag ≠ freeTag z o := by
  rw [blockSize_eq] at hdvd hcz
  have hcm : c ∈ held ++ freeBlocks lists := List.mem_append_left _ hc
  obtain ⟨d, hd, rfl, hs⟩ :=
    h.tiling.ancestor_base pageSize_pos hcm hr hlo hhi hdvd hzc hcz
  intro htag
  have hmem := (h.tag_iff h.untagged ho hd).mp htag
  have hl : d = ⟨d.base, o⟩ :=
    h.eq_of_base_eq hd (h.mem_blocks ho hmem) rfl
  have hdc : d = c := hs (congrArg Block.order hl)
  exact h.held_ne_listed hc ho hmem (congrArg Block.base hdc).symm

theorem scanContaining (hc : ⟨pa, o⟩ ∈ held) (hr : r ∈ b.regions) (hpa : pa < r.2)
    (hl : r.2 ≤ 2 ^ 64) (bits mask : Nat)
    (hm : ∀ n, mask.testBit n = true → b.nonempty.testBit n = true) :
    b.scanContaining pa o r.1 bits mask = .ok () := by
  induction bits generalizing mask with
  | zero => rfl
  | succ bits ih =>
    rw [Buddy.scanContaining]
    split_ifs with hne
    · rfl
    · obtain ⟨n, hn⟩ := Nat.exists_testBit_of_ne_zero hne
      have hmax : maxOrder < 32 := by decide
      have hn32 : n < 32 := by
        have := ((h.nonempty n).mp (hm n hn)).1
        omega
      have hset := (trailingZeros_spec hn32 hn).2.1
      have ho := ((h.nonempty _).mp (hm _ hset)).1
      simp only
      split
      · rfl
      · rename_i hlo
        have hro := and_notU_two_pow_sub_one (a := pa) (k := 12 + trailingZeros 32 mask)
          (by omega)
        rw [← blockSize_eq_two_pow] at hro
        have hpos := blockSize_pos (trailingZeros 32 mask)
        have hle := Nat.div_mul_le_self pa (blockSize (trailingZeros 32 mask))
        have hlt := Nat.lt_div_mul_add hpos (a := pa)
        rw [hro] at hlo ⊢
        rw [if_neg (h.containing_tag_ne hc hr ho (Nat.le_of_not_lt hlo) (by omega)
          (Nat.dvd_mul_left _ _) hle hlt)]
        exact ih _ fun n hn => hm n (by
          rw [Nat.testBit_and, Bool.and_eq_true] at hn
          exact hn.1)

/-! ### Stores by the owner of a block -/

/-- A store inside a held block does not reach the bookkeeping words of another
block's head. -/
theorem word_write {d : Block} {j : Nat} (hc : c ∈ held) (hd : d ∈ held ++ freeBlocks lists)
    (hne : d ≠ c) (hj : j < pageSize) (hlo : c.base ≤ addr)
    (hhi : addr < c.base + blockSize c.order) :
    ({ b with mem := update b.mem addr value } : Buddy).word d.base j = b.word d.base j := by
  have hcm : c ∈ held ++ freeBlocks lists := List.mem_append_left _ hc
  refine update_of_ne (fun heq => hne ?_) ..
  obtain ⟨m, hm⟩ := h.dvd_of_mem hcm
  obtain ⟨n, hn⟩ := h.dvd_of_mem hd
  -- Both bases are page aligned and the offset is below a page.
  have hb : c.base ≤ d.base := by
    by_contra hlt
    have hmn : n + 1 ≤ m := Nat.lt_of_mul_lt_mul_left (hm ▸ hn ▸ Nat.lt_of_not_le hlt)
    have := Nat.mul_le_mul_left pageSize hmn
    rw [Nat.mul_add] at this
    omega
  have hco : c.Covers pageSize d.base := ⟨hb, by rw [Block.size_pageSize]; omega⟩
  exact h.packing.eq_of_covers hd hcm (d.covers_base pageSize_pos) hco

/-- A store inside a held block keeps the lists, as long as it does not tag the
block's own head. -/
theorem write (hc : c ∈ held) (hlo : c.base ≤ addr) (hhi : addr < c.base + blockSize c.order)
    (htag : addr = c.base + offTag → ∀ o ≤ maxOrder, value ≠ freeTag c.base o) :
    Partition { b with mem := update b.mem addr value } held lists := by
  have hl : ∀ k ≤ maxOrder, ∀ y ∈ lists k, ∀ j < pageSize,
      ({ b with mem := update b.mem addr value } : Buddy).word y j = b.word y j := by
    intro k hk y hy j hj
    refine h.word_write hc (h.mem_blocks hk hy) ?_ hj hlo hhi
    rintro rfl
    exact h.held_ne_listed hc hk hy rfl
  refine ⟨⟨h.packing, fun k hk => ?_, fun k hk y hy => ?_, h.nonempty⟩, fun d hd k hk => ?_,
    h.covers⟩
  · exact (h.linked k hk).congr (fun y hy => hl k hk y hy _ (by decide))
      fun y hy => hl k hk y hy _ (by decide)
  · rw [hl k hk y hy _ (by decide), h.tagged k hk y hy]
  · rcases eq_or_ne d c with rfl | hdc
    · by_cases ha : addr = d.base + offTag
      · subst ha
        simp only [word, update_self]
        exact htag rfl k hk
      · simp only [word, update_of_ne fun heq => ha (Eq.symm heq)]
        exact h.untagged d hd k hk
    · rw [h.word_write hc (List.mem_append_left _ hd) hdc (by decide) hlo hhi]
      exact h.untagged d hd k hk

end Partition

/-! ### Whole calls -/

/-- The state between two calls, with `live` the blocks handed out. -/
structure Sound (b : Buddy) (live : List Block) (lists : Nat → List Nat) : Prop
    extends Partition b live lists where
  orders : ∀ c ∈ live, c.order ≤ maxOrder
  freeBytes : b.freeBytes = listedBytes lists
  regionsApart : b.regions.Pairwise fun r s => r.2 ≤ s.1 ∨ s.2 ≤ r.1
  regionsLimit : ∀ r ∈ b.regions, r.2 < 2 ^ 64

/-- The bits `alloc` chooses from: the non-empty lists at or above `order`. -/
theorem testBit_usable {mask order n : Nat} (hn : n < 32) :
    (mask &&& notU 32 (1 <<< order - 1)).testBit n = (mask.testBit n && decide (order ≤ n)) := by
  rw [Nat.testBit_and, Nat.one_shiftLeft]
  by_cases hle : order ≤ n
  · simp [hn, hle]
  · simp [hn, hle, Nat.lt_of_not_le hle]

namespace Sound

variable {live : List Block} {order n : Nat}

section

variable (h : Sound b live lists)

include h

/-- Without a free block of at least the order asked for, `alloc` refuses and
changes nothing. -/
theorem alloc_none (hno : ∀ n, order ≤ n → n ≤ maxOrder → lists n = []) :
    b.alloc order = .ok (none, b) := by
  have hu : b.nonempty &&& notU 32 (1 <<< order - 1) = 0 := by
    refine Nat.eq_of_testBit_eq fun n => ?_
    by_contra hbit
    have hbit : (b.nonempty &&& notU 32 (1 <<< order - 1)).testBit n = true := by simpa using hbit
    have hset : b.nonempty.testBit n = true := by
      rw [Nat.testBit_and, Bool.and_eq_true] at hbit
      exact hbit.1
    obtain ⟨hn, hl⟩ := (h.nonempty n).mp hset
    have hmax : maxOrder < 32 := by decide
    rw [testBit_usable (by omega), hset, Bool.true_and, decide_eq_true_eq] at hbit
    exact hl (hno n hbit hn)
  unfold alloc
  split
  · rfl
  · simp [hu]

/-- With one, `alloc` hands out a block of exactly that order. -/
theorem alloc_some (hlo : order ≤ n) (hhi : n ≤ maxOrder)
    (hli : lists n ≠ []) :
    ∃ pa b' lists', b.alloc order = .ok (some pa, b') ∧ Sound b' (⟨pa, order⟩ :: live) lists' ∧
      b'.regions = b.regions ∧ b'.counters = b.counters ∧
      (Coalesced b.regions lists → Coalesced b'.regions lists') ∧
      (Honest b lists → Honest b' lists') := by
  have hmax : maxOrder < 32 := by decide
  have hset := (h.nonempty n).mpr ⟨hhi, hli⟩
  let usable := b.nonempty &&& notU 32 (1 <<< order - 1)
  have hbit : usable.testBit n = true := by
    rw [testBit_usable (by omega), hset]
    simpa using hlo
  have hu : usable ≠ 0 := fun heq => by simp [heq] at hbit
  obtain ⟨hs32, hsb, -⟩ := trailingZeros_spec (show n < 32 by omega) hbit
  rw [testBit_usable hs32, Bool.and_eq_true, decide_eq_true_eq] at hsb
  obtain ⟨hs, hsl⟩ := (h.nonempty _).mp hsb.1
  obtain ⟨pa, rest, hl⟩ := List.exists_cons_of_ne_nil hsl
  have hmid : lists (trailingZeros 32 usable) = [] ++ pa :: rest := hl
  obtain ⟨b₁, hpop, hd⟩ := h.pop_eq hs hl
  obtain ⟨lists', hp, hf, hb, hco, hho⟩ :=
    (h.detach hs hmid hd).splitDown hsb.2 hs
  have hf := hd.frame.trans hf
  have hfr : b.freeBytes = listedBytes lists' + blockSize order := by
    rw [h.freeBytes, hb, listedBytes_remove hs hmid, Nat.add_comm]
  refine ⟨pa,
    { b₁.splitDown pa order (trailingZeros 32 usable) with freeBytes := listedBytes lists' },
    lists', ?_, ?_, hf.regions, hf.counters, fun hc => ?_, fun hh => ?_⟩
  · rw [alloc, if_neg (by omega), if_neg hu]
    simp only
    rw [hpop]
    have hsub : subU64 (b₁.splitDown pa order (trailingZeros 32 usable)).freeBytes
        (blockSize order) = .ok (listedBytes lists') := by
      rw [hf.freeBytes, hfr, subU64_ok (by omega), Nat.add_sub_cancel]
    simp only [bind, Except.bind] at hsub ⊢
    rw [hsub]
    rfl
  · refine ⟨hp.congr rfl rfl rfl rfl, fun c hc => ?_, rfl, ?_, ?_⟩
    · rcases List.mem_cons.mp hc with rfl | hc
      · exact hlo.trans hhi
      · exact h.orders c hc
    · exact hf.regions ▸ h.regionsApart
    · exact hf.regions ▸ h.regionsLimit
  · rw [hd.regions] at hco
    refine (hf.regions : _ = b.regions) ▸ hco (hc.subset fun c hmem => ?_)
    exact (freeBlocks_perm hs hmid).mem_iff.mpr (List.mem_cons_of_mem _ hmem)
  · exact hho (hh.detach hmid hd)

/-- Whatever is asked for, `alloc` refuses or hands out a block. -/
theorem alloc_cases {popped : Option Nat}
    (hok : b.alloc order = .ok (popped, b')) :
    (popped = none ∧ b' = b) ∨
      ∃ pa lists', popped = some pa ∧ Sound b' (⟨pa, order⟩ :: live) lists' ∧
        b'.regions = b.regions ∧ (Coalesced b.regions lists → Coalesced b'.regions lists') ∧
        (Honest b lists → Honest b' lists') := by
  by_cases hn : ∀ n, order ≤ n → n ≤ maxOrder → lists n = []
  · rw [h.alloc_none hn] at hok
    cases hok
    exact .inl ⟨rfl, rfl⟩
  · push Not at hn
    obtain ⟨n, hlo, hhi, hl⟩ := hn
    obtain ⟨pa, b'', lists', ha, hs, hr, -, hc, hh⟩ := h.alloc_some hlo hhi hl
    rw [ha] at hok
    cases hok
    exact .inr ⟨pa, lists', rfl, hs, hr, hc, hh⟩

theorem region_eq {r s : Nat × Nat} {x : Nat} (hr : r ∈ b.regions)
    (hs : s ∈ b.regions) (hrx : r.1 ≤ x ∧ x < r.2) (hsx : s.1 ≤ x ∧ x < s.2) : s = r := by
  by_contra hne
  have hsy : Std.Symm fun r s : Nat × Nat => r.2 ≤ s.1 ∨ s.2 ≤ r.1 := ⟨fun _ _ hrs => hrs.symm⟩
  have := h.regionsApart.forall hs hr hne
  omega

end

variable {c : Block}

/-- A live block lies in the region `regionOf` finds for it. -/
theorem regionOf_live (h : Sound b live lists) (hc : c ∈ live) :
    ∃ r ∈ b.regions, b.regionOf c.base = some r ∧ r.1 ≤ c.base ∧
      c.base + blockSize c.order ≤ r.2 := by
  obtain ⟨r, hr, hlo, hhi⟩ := h.packing.inside c (List.mem_append_left _ hc)
  rw [Block.size_pageSize] at hhi
  have hpos := blockSize_pos c.order
  cases hf : b.regionOf c.base with
  | none =>
    have := List.find?_eq_none.mp hf r hr
    simp only [Bool.and_eq_true, decide_eq_true_eq] at this
    omega
  | some s =>
    have hs := List.mem_of_find?_eq_some hf
    have hin := List.find?_some hf
    simp only [Bool.and_eq_true, decide_eq_true_eq] at hin
    have hrs : s = r := h.region_eq hr hs ⟨hlo, by omega⟩ hin
    exact ⟨s, hs, rfl, hin.1, hrs ▸ hhi⟩

/-- The blocks fit below the end of the address space, listed and live together. -/
theorem listedBytes_add_lt (h : Sound b live lists) (hc : c ∈ live) :
    listedBytes lists + blockSize c.order < 2 ^ 64 := by
  have hend : ∀ d ∈ live ++ freeBlocks lists, d.base + d.size pageSize ≤ 2 ^ 64 - 1 := by
    intro d hd
    obtain ⟨r, hr, -, hhi⟩ := h.packing.inside d hd
    have := h.regionsLimit r hr
    omega
  have hsum := h.packing.sum_size_le hend
  have hli : blockSize c.order ≤ (live.map (Block.size pageSize)).sum := by
    rw [← Block.size_pageSize]
    exact List.single_le_sum (by simp) _ (List.mem_map.mpr ⟨c, hc, rfl⟩)
  rw [List.map_append, List.sum_append] at hsum
  have hl : listedBytes lists = ((freeBlocks lists).map (Block.size pageSize)).sum := rfl
  omega

theorem takeLive (h : Sound b live lists) (hc : c ∈ live) :
    Sound b (c :: live.erase c) lists :=
  have hp := List.perm_cons_erase hc
  ⟨h.toPartition.perm hp, fun d hd => h.orders d (hp.mem_iff.mpr hd), h.freeBytes,
    h.regionsApart, h.regionsLimit⟩

theorem free_ok (h : Sound b (⟨pa, order⟩ :: live) lists) :
    ∃ b' lists', b.free pa order = .ok b' ∧ Sound b' live lists' ∧
      b'.regions = b.regions ∧ b'.counters = b.counters ∧
      (Coalesced b.regions lists → Coalesced b'.regions lists') ∧
      (Honest b lists → Honest b' lists') := by
  have hc : (⟨pa, order⟩ : Block) ∈ ⟨pa, order⟩ :: live := by simp
  have ho : order ≤ maxOrder := h.orders _ hc
  have ha := h.packing.aligned ⟨pa, order⟩ (by simp)
  simp only [Block.Aligned, Block.size_pageSize] at ha
  have hfit := h.listedBytes_add_lt hc
  obtain ⟨r, hr, hre, hlo, hhi⟩ := h.regionOf_live hc
  simp only at hre hlo hhi hfit
  have hpos := blockSize_pos order
  -- The running total is advanced before the block is checked.
  let b₀ := { b with freeBytes := listedBytes lists + blockSize order }
  have hp : Partition b₀ (⟨pa, order⟩ :: live) lists := h.toPartition.congr rfl rfl rfl rfl
  have hsc : b₀.scanContaining pa order r.1 32 b₀.nonempty = .ok () :=
    hp.scanContaining hc hr (by omega) (Nat.le_of_lt (h.regionsLimit r hr)) 32 _ fun _ hn => hn
  obtain ⟨pa', o', b₁, lists', hco, hp', hf, ho', hby, hsub, hlo', hhi', hb,
    hho⟩ := hp.coalesce (maxOrder - order) (by omega) hr hlo hhi
  refine ⟨b₁.push pa' o', _, ?_, ⟨hp'.push ho', ?_, ?_, ?_, ?_⟩, ?_, ?_, fun hc => ?_, fun hh => ?_⟩
  · have hne : b.regions ≠ [] := List.ne_nil_of_mem hr
    rw [free, if_neg (by omega), if_neg hne, h.freeBytes, addU64_ok hfit]
    have hregion₀ : b₀.regionOf pa = some (r.1, r.2) := hre
    simp only [bind, Except.bind]
    rw [hregion₀]
    simp only
    rw [if_neg (by omega), if_neg (by simp [Nat.mod_eq_zero_of_dvd ha]), hsc]
    rw [hco]
    rfl
  · exact fun c hc => h.orders c (by simp [hc])
  · rw [push_freeBytes, hf.freeBytes, listedBytes_push ho']
    simp only [b₀]
    omega
  · rw [push_regions, hf.regions]
    exact h.regionsApart
  · rw [push_regions, hf.regions]
    exact h.regionsLimit
  · rw [push_regions, hf.regions]
  · rw [push_counters, hf.counters]
    rfl
  · rw [push_regions, hf.regions]
    refine Coalesced.push (hc.subset hsub) ho' fun hlt z hz hin hha => ?_
    -- The cell lies in the region of the block, the only one that has its address.
    obtain ⟨s, hs, hslo, hshi⟩ := hin
    have hpos' := blockSize_pos o'
    rw [blockSize_succ] at hshi
    obtain rfl : s = r := h.region_eq hr hs ⟨hlo', hhi'⟩ (by omega)
    rcases hha with rfl | rfl
    · rw [lower_xor hz] at hb ⊢
      exact hb hlt (by omega) (by omega)
    · rw [upper_xor hz] at hb ⊢
      exact hb hlt (by omega) (by omega)
  · exact (hho hh).push ho' (hp'.dvd_of_mem (c := ⟨pa', o'⟩) (by simp)) (hp'.head_dvd ho')

end Sound

end Buddy

end Qunix.Mm
