/-
Frees of memory that is free already (the double-free scan of `free` in
`crates/qunix-mm/src/buddy.rs`).

The scan asks whether a free block contains the address that is freed. A smaller free
block that starts strictly inside the freed range contains no such address, and its
tag is not read: the range goes to its list, and the memory of the smaller block is
on two lists at once. Every other overlap is caught.

Here anything may be freed, and clients write where no block is free. They forge no
tag, in any page; so the pages that carry one are those on the lists (`Honest`), and
the memory outside the lists may be cut into blocks in any way (`Sound.retile`): what
is freed without an overlap is as good as a block that was handed out.
-/

import Qunix.Mm.Canonical
import Qunix.Mm.Refusals

namespace Qunix.Mm

open Qunix.Lib Function

namespace Buddy

variable {b b' : Buddy} {live : List Block} {lists : Nat → List Nat} {pa order o a : Nat}

/-! ### The scan -/

/-- An address aligned to its size, rounded to a smaller size, is not below it. -/
theorem le_floor {t : Nat} (hle : a ≤ pa) (hdvd : blockSize o ∣ a) (ht : t ≤ o) :
    a ≤ pa / blockSize t * blockSize t := by
  have hs : blockSize t ∣ a := by
    rw [blockSize_eq_two_pow] at hdvd ⊢
    exact (Nat.pow_dvd_pow 2 (by omega)).trans hdvd
  obtain ⟨m, rfl⟩ := hs
  rw [Nat.mul_comm]
  refine Nat.mul_le_mul_right _ ((Nat.le_div_iff_mul_le (blockSize_pos t)).mpr ?_)
  rwa [Nat.mul_comm]

theorem floor_eq (hle : a ≤ pa) (hlt : pa < a + blockSize o) (hdvd : blockSize o ∣ a) :
    pa / blockSize o * blockSize o = a := by
  obtain ⟨m, rfl⟩ := hdvd
  rw [Nat.mul_comm (blockSize o) m] at hle hlt ⊢
  rw [Nat.div_eq_of_lt_le hle (by rwa [Nat.succ_mul])]

theorem containing_eq (hpa : pa < 2 ^ 64) (o : Nat) :
    pa &&& notU 64 (blockSize o - 1) = pa / blockSize o * blockSize o := by
  rw [blockSize_eq_two_pow]
  exact and_notU_two_pow_sub_one hpa

/-- The scan stops at a free block that contains the address. -/
theorem scanContaining_error (order bits : Nat) {first mask : Nat} (hpa : pa < 2 ^ 64) (ho : o < 32)
    (hdvd : blockSize o ∣ a) (hle : a ≤ pa) (hlt : pa < a + blockSize o) (hfi : first ≤ a)
    (htag : b.word a offTag = freeTag a o) (hset : mask.testBit o = true)
    (hlow : ∀ n < 32 - bits, mask.testBit n = false) :
    ∃ e, b.scanContaining pa order first bits mask = .error e := by
  induction bits generalizing mask with
  | zero =>
    rw [hlow o ho] at hset
    cases hset
  | succ bits ih =>
    have hne : mask ≠ 0 := by
      rintro rfl
      simp at hset
    obtain ⟨-, hbit, hb⟩ := trailingZeros_spec ho hset
    have hto : trailingZeros 32 mask ≤ o := by
      by_contra hgt
      rw [hb o (Nat.lt_of_not_le hgt)] at hset
      cases hset
    have hf := le_floor hle hdvd hto
    rw [Buddy.scanContaining, if_neg hne]
    simp only [containing_eq hpa]
    rw [if_neg (Nat.not_lt.mpr (hfi.trans hf))]
    split_ifs with hnot
    · exact ⟨_, rfl⟩
    · have hneo : o ≠ trailingZeros 32 mask := by
        intro heq
        rw [← heq, floor_eq hle hlt hdvd] at hnot
        exact hnot htag
      refine ih ?_ fun n hn => ?_
      · simp [testBit_and_sub_one hbit hb, hset, hneo]
      · -- The bits of earlier turns are gone, and so is the one of this turn.
        rw [testBit_and_sub_one hbit hb]
        by_cases hold : n < 32 - (bits + 1)
        · simp [hlow n hold]
        · by_cases hnt : n = trailingZeros 32 mask
          · simp [hnt]
          · have : n < trailingZeros 32 mask := by
              have hbit' : 32 - (bits + 1) ≤ trailingZeros 32 mask := by
                by_contra hlt'
                rw [hlow _ (Nat.lt_of_not_le hlt')] at hbit
                cases hbit
              omega
            simp [hb n this]

/-- The scan passes where no listed block contains the address. -/
theorem Honest.scanContaining (hh : Honest b lists) (hpa : pa < 2 ^ 64)
    (hno : ∀ o ≤ maxOrder, ∀ a ∈ lists o, ¬ (a ≤ pa ∧ pa < a + blockSize o)) (first : Nat)
    (bits mask : Nat) (hm : ∀ n, mask.testBit n = true → n ≤ maxOrder) :
    b.scanContaining pa order first bits mask = .ok () := by
  induction bits generalizing mask with
  | zero => rfl
  | succ bits ih =>
    rw [Buddy.scanContaining]
    split_ifs with hne
    · rfl
    · obtain ⟨n, hn⟩ := Nat.exists_testBit_of_ne_zero hne
      have hmax : maxOrder < 32 := by decide
      have hset := (trailingZeros_spec (w := 32) (by have := hm n hn; omega) hn).2.1
      have ho := hm _ hset
      have hpos := blockSize_pos (trailingZeros 32 mask)
      simp only [containing_eq hpa]
      split
      · rfl
      · rw [if_neg fun htag => ?_]
        · refine ih _ fun n hn => hm n ?_
          rw [Nat.testBit_and, Bool.and_eq_true] at hn
          exact hn.1
        · have hmem := hh _ _ ((pageSize_dvd_blockSize _).trans (Nat.dvd_mul_left _ _)) ho htag
          exact hno _ ho _ hmem ⟨Nat.div_mul_le_self _ _, Nat.lt_div_mul_add hpos⟩

/-- The merge loop returns, whatever memory is freed. -/
theorem Honest.coalesce (first last levels : Nat) (hh : Honest b lists)
    (h : Threaded b [] lists) (hdvd : blockSize o ∣ pa) (hle : o + levels = maxOrder) :
    ∃ pa' o' b', b.coalesce first last pa o levels = .ok (pa', o', b') ∧
      b'.freeBytes = b.freeBytes := by
  induction levels generalizing b lists pa o with
  | zero => exact ⟨pa, o, b, rfl, rfl⟩
  | succ levels ih =>
    have ho : o ≤ maxOrder := by omega
    rw [Buddy.coalesce]
    split
    · exact ⟨pa, o, b, rfl, rfl⟩
    · have ha : Block.Aligned pageSize ⟨pa, o⟩ := by
        simpa only [Block.Aligned, Block.size_pageSize] using hdvd
      obtain ⟨z, hz, hha⟩ := buddy_halves ha
      have hmin : min pa (pa ^^^ blockSize o) = z := by omega
      have hp : pageSize ∣ pa ^^^ blockSize o := by
        have hzp := (pageSize_dvd_blockSize (o + 1)).trans hz
        rcases hha with ⟨-, hb⟩ | ⟨-, hb⟩
        · exact hb ▸ Nat.dvd_add hzp (pageSize_dvd_blockSize o)
        · exact hb ▸ hzp
      by_cases htag : b.word (pa ^^^ blockSize o) offTag = freeTag (pa ^^^ blockSize o) o
      · have hmem := hh _ o hp ho htag
        obtain ⟨b₁, hu, hd⟩ := h.unlink_eq ho hmem
        obtain ⟨l₁, l₂, hl⟩ := List.append_of_mem hmem
        have h₁ := h.detach ho hl hd
        obtain ⟨pa', o', b', hrun, hf⟩ :=
          ih (hh.detach hl hd) ⟨h₁.packing.tail, h₁.linked, h₁.tagged, h₁.nonempty⟩ hz (by omega)
        refine ⟨pa', o', b', ?_, hf.trans hd.freeBytes⟩
        rw [hu, hmin]
        exact hrun
      · refine ⟨pa, o, b, ?_, rfl⟩
        rw [show b.unlink (pa ^^^ blockSize o) o = .ok (false, b) from if_pos htag]
        rfl

/-! ### Memory outside the lists -/

/-- A block apart from the free blocks is as good as one that was handed out. -/
theorem Sound.retile (h : Sound b live lists) (hh : Honest b lists) {c : Block}
    (ho : c.order ≤ maxOrder) (hdvd : blockSize c.order ∣ c.base)
    (hin : ∃ r ∈ b.regions, r.1 ≤ c.base ∧ c.base + blockSize c.order ≤ r.2)
    (ha : ∀ d ∈ freeBlocks lists, c.Apart pageSize d) :
    ∃ cells, Sound b (c :: cells) lists := by
  obtain ⟨cells, hc, hti⟩ := h.tiling.retile pageSize_pos
    (by simpa [Block.Aligned] using hdvd)
    (by simpa using hin) ha
  have ht : Threaded b (c :: cells) lists :=
    ⟨hti.toPacking, h.linked, h.tagged, h.nonempty⟩
  refine ⟨cells, ⟨ht, hh.untagged ht, hti.covers⟩, fun d hd => ?_,
    h.freeBytes, h.regionsApart, h.regionsLimit⟩
  rcases List.mem_cons.mp hd with rfl | hd
  · exact ho
  · rw [hc d hd]
    exact Nat.zero_le _

/-- A store outside the free blocks that forges no tag keeps the lists. -/
theorem Sound.write_outside (h : Sound b live lists) (hh : Honest b lists) {addr value : Nat}
    (hout : ∀ a o, b.FreeAt a o → ¬ (a ≤ addr ∧ addr < a + blockSize o))
    (hf : ∀ p o, pageSize ∣ p → o ≤ maxOrder → addr = p + offTag → value ≠ freeTag p o) :
    Sound { b with mem := update b.mem addr value } live lists ∧
      Honest { b with mem := update b.mem addr value } lists := by
  have hl : ∀ k ≤ maxOrder, ∀ y ∈ lists k, ∀ j < pageSize,
      ({ b with mem := update b.mem addr value } : Buddy).word y j = b.word y j := by
    intro k hk y hy j hj
    refine update_of_ne (fun heq => ?_) ..
    refine hout y k (h.freeAt_iff.mpr (mem_freeBlocks.mpr ⟨hk, hy⟩)) ?_
    have := pageSize_le_blockSize k
    omega
  have ht : Threaded { b with mem := update b.mem addr value } live lists := by
    refine ⟨h.packing, fun k hk => ?_, fun k hk y hy => ?_, h.nonempty⟩
    · exact (h.linked k hk).congr (fun y hy => hl k hk y hy _ (by decide))
        fun y hy => hl k hk y hy _ (by decide)
    · rw [hl k hk y hy _ (by decide), h.tagged k hk y hy]
  have hho : Honest { b with mem := update b.mem addr value } lists := by
    intro p o hp ho htag
    by_cases ha : p + offTag = addr
    · simp only [word, ha, update_self] at htag
      exact absurd htag (hf p o hp ho ha.symm)
    · simp only [word, update_of_ne ha] at htag
      exact hh p o hp ho htag
  exact ⟨⟨⟨ht, hho.untagged ht, h.covers⟩, h.orders, h.freeBytes,
    h.regionsApart, h.regionsLimit⟩, hho⟩

/-! ### What is caught -/

/-- Distinct free blocks have no address in common. -/
def DisjointFree (b : Buddy) : Prop :=
  ∀ a o a' o', b.FreeAt a o → b.FreeAt a' o' →
    (a = a' ∧ o = o') ∨ a + blockSize o ≤ a' ∨ a' + blockSize o' ≤ a

/-- If `free` returns, it refused, or no free block overlaps the range; and the free
blocks are disjoint afterwards. -/
def Caught (b : Buddy) (pa order : Nat) : Prop :=
  ∀ b', b.free pa order = .ok b' →
    (b' = { b with foreignFrees := b'.foreignFrees } ∨
      ∀ a o, b.FreeAt a o → a + blockSize o ≤ pa ∨ pa + blockSize order ≤ a) ∧ b'.DisjointFree

/-- The request is for an aligned part of a region, `free_bytes` has room for it, no
free block contains its address, and one starts inside it. -/
def Overlooks (b : Buddy) (pa order : Nat) : Prop :=
  ¬ b.Unowned pa order ∧ b.freeBytes + blockSize order < 2 ^ 64 ∧
    (∀ a o, b.FreeAt a o → ¬ (a ≤ pa ∧ pa < a + blockSize o)) ∧
    ∃ a o, b.FreeAt a o ∧ pa < a ∧ a < pa + blockSize order

theorem Sound.disjointFree (h : Sound b live lists) : b.DisjointFree := by
  intro a o a' o' ha ha'
  rw [h.freeAt_iff] at ha ha'
  by_cases heq : (⟨a, o⟩ : Block) = ⟨a', o'⟩
  · cases heq
    exact .inl ⟨rfl, rfl⟩
  · have := h.packing_free.apart.forall ha ha' heq
    simpa only [Block.Apart, Block.size_pageSize] using Or.inr this

theorem region_of_owned (ho : ¬ b.Unowned pa order) :
    ∃ r ∈ b.regions, b.regionOf pa = some r ∧ r.1 ≤ pa ∧ pa + blockSize order ≤ r.2 ∧
      blockSize order ∣ pa := by
  cases hre : b.regionOf pa with
  | none => exact absurd (.inl (regionOf_eq_none.mp hre)) ho
  | some r =>
    obtain ⟨hr, hlo, hhi⟩ := regionOf_eq_some hre
    rw [unowned_of_regionOf hre, not_or, not_not] at ho
    exact ⟨r, hr, rfl, hlo, by omega, Nat.dvd_of_mod_eq_zero ho.2⟩

theorem free_of_owned {r : Nat × Nat} (ho : order ≤ maxOrder) (hr : b.regionOf pa = some r)
    (how : ¬ b.Unowned pa order) :
    b.free pa order = (do
      let freeBytes ← addU64 b.freeBytes (blockSize order)
      let b := { b with freeBytes := freeBytes }
      b.scanContaining pa order r.1 32 b.nonempty
      let (pa, order, b) ← b.coalesce r.1 r.2 pa order (maxOrder - order)
      pure (b.push pa order)) := by
  have hne : b.regions ≠ [] := List.ne_nil_of_mem (regionOf_eq_some hr).1
  rw [unowned_of_regionOf hr, not_or] at how
  rw [Buddy.free, if_neg (Nat.not_lt.mpr ho), if_neg hne]
  simp [regionOf_freeBytes, hr, if_neg how.1, if_neg how.2]

section

variable (h : Sound b live lists)

include h

/-- A free block that contains the address stops an owned request. -/
theorem Sound.free_contained (ho : order ≤ maxOrder)
    (how : ¬ b.Unowned pa order) {d : Block} (hd : d ∈ freeBlocks lists)
    (hc : d.Covers pageSize pa) : ∃ e, b.free pa order = .error e := by
  obtain ⟨r, hr, hre, hlo, hhi, -⟩ := region_of_owned how
  have hpos := blockSize_pos order
  have hl := h.regionsLimit r hr
  obtain ⟨hdo, hmem⟩ := mem_freeBlocks.mp hd
  have hmax : maxOrder < 32 := by decide
  obtain ⟨hle, hlt⟩ := hc
  rw [Block.size_pageSize] at hlt
  have ha := h.packing_free.aligned d hd
  simp only [Block.Aligned, Block.size_pageSize] at ha
  obtain ⟨s, hs, hslo, hshi⟩ := h.packing_free.inside d hd
  rw [Block.size_pageSize] at hshi
  obtain rfl : s = r := h.region_eq hr hs ⟨hlo, by omega⟩ (by omega)
  have hset := (h.nonempty d.order).mpr ⟨hdo, List.ne_nil_of_mem hmem⟩
  rw [free_of_owned ho hre how]
  cases hadd : addU64 b.freeBytes (blockSize order) with
  | error e => exact ⟨e, rfl⟩
  | ok freeBytes =>
    obtain ⟨e, he⟩ := scanContaining_error (b := { b with freeBytes := freeBytes })
      order 32 (by omega) (by omega) ha hle hlt hslo
      (h.tagged d.order hdo d.base hmem) hset (by simp)
    refine ⟨e, ?_⟩
    rw [bind_of_eq_ok rfl]
    simp only
    rw [he]
    rfl

theorem Sound.not_overlooks_page (pa : Nat) : ¬ b.Overlooks pa 0 := by
  rintro ⟨how, -, -, a, o, ha, hlo, hhi⟩
  obtain ⟨-, -, -, -, -, hdvd⟩ := region_of_owned how
  obtain ⟨ho, hmem⟩ := mem_freeBlocks.mp (h.freeAt_iff.mp ha)
  have hp : pageSize ∣ a - pa := Nat.dvd_sub (h.dvd_of_listed ho hmem) hdvd
  have := Nat.le_of_dvd (by omega) hp
  have hs : blockSize 0 = pageSize := rfl
  omega

variable (hh : Honest b lists)

include hh

theorem Sound.free_overlooked (ho : order ≤ maxOrder) (hov : b.Overlooks pa order) :
    ∃ b', b.free pa order = .ok b' ∧ b'.freeBytes = b.freeBytes + blockSize order := by
  obtain ⟨how, hro, hno, -⟩ := hov
  obtain ⟨r, hr, hre, hlo, hhi, hdvd⟩ := region_of_owned how
  have hli := h.regionsLimit r hr
  have hs : { b with freeBytes := b.freeBytes + blockSize order }.scanContaining pa order r.1 32
      b.nonempty = .ok () := by
    have hl : ∀ o ≤ maxOrder, ∀ a ∈ lists o, ¬ (a ≤ pa ∧ pa < a + blockSize o) :=
      fun o ho a ha => hno a o (h.freeAt_iff.mpr (mem_freeBlocks.mpr ⟨ho, ha⟩))
    exact Honest.scanContaining (b := { b with freeBytes := b.freeBytes + blockSize order })
      hh (by omega) hl _ _ _ fun n hn => ((h.nonempty n).mp hn).1
  obtain ⟨pa', o', b₁, hc, hf⟩ :=
    Honest.coalesce (b := { b with freeBytes := b.freeBytes + blockSize order }) r.1 r.2
      (maxOrder - order) hh ⟨h.packing_free, h.linked, h.tagged, h.nonempty⟩ hdvd (by omega)
  refine ⟨b₁.push pa' o', ?_, push_freeBytes.trans hf⟩
  rw [free_of_owned ho hre how, addU64_ok hro, bind_of_eq_ok rfl]
  simp only
  rw [hs, hc]
  rfl

/-- A request that no free block overlaps is freed like a block that was handed out. -/
theorem Sound.free_apart (ho : order ≤ maxOrder) (how : ¬ b.Unowned pa order)
    (ha : ∀ d ∈ freeBlocks lists, (⟨pa, order⟩ : Block).Apart pageSize d) :
    ∃ b' cells lists', b.free pa order = .ok b' ∧ Sound b' cells lists' ∧ Honest b' lists' ∧
      b'.regions = b.regions := by
  obtain ⟨r, hr, -, hlo, hhi, hdvd⟩ := region_of_owned how
  obtain ⟨cells, hs⟩ := h.retile hh ho hdvd ⟨r, hr, hlo, hhi⟩ ha
  obtain ⟨b', lists', hf, hs', hre, -, -, hho⟩ := hs.free_ok
  exact ⟨b', cells, lists', hf, hs', hho hh, hre⟩

theorem Sound.free_cases (hov : ¬ b.Overlooks pa order) (hok : b.free pa order = .ok b') :
    ∃ live' lists', Sound b' live' lists' ∧ Honest b' lists' ∧ b'.regions = b.regions ∧
      (b' = { b with foreignFrees := b'.foreignFrees } ∨
        ∀ a o, b.FreeAt a o → a + blockSize o ≤ pa ∨ pa + blockSize order ≤ a) := by
  have ho : order ≤ maxOrder := by
    by_contra hgt
    rw [Buddy.free, if_pos (Nat.lt_of_not_le hgt)] at hok
    cases hok
  have hne : b.regions ≠ [] := by
    intro hnil
    rw [Buddy.free, if_neg (Nat.not_lt.mpr ho), if_pos hnil] at hok
    cases hok
  by_cases how : b.Unowned pa order
  · rw [free_of_unowned ho hne how] at hok
    obtain ⟨freeBytes, hadd, hok⟩ := bind_eq_ok hok
    obtain ⟨restored, hsub, hok⟩ := bind_eq_ok hok
    obtain ⟨foreign, -, hok⟩ := bind_eq_ok hok
    have hre : restored = b.freeBytes := by
      obtain ⟨hlt, heq⟩ := addU64_eq_ok hadd
      obtain ⟨-, heq'⟩ := subU64_eq_ok hsub
      simp only at heq'
      omega
    cases hok
    subst hre
    exact ⟨live, lists, h.congr rfl rfl rfl rfl rfl, hh, rfl, .inl rfl⟩
  · obtain ⟨r, hr, hregion, -⟩ := region_of_owned how
    have hro : b.freeBytes + blockSize order < 2 ^ 64 := by
      rw [free_of_owned ho hregion how] at hok
      obtain ⟨_, hadd, -⟩ := bind_eq_ok hok
      exact (addU64_eq_ok hadd).1
    have hn : ∀ d ∈ freeBlocks lists, ¬ d.Covers pageSize pa := by
      intro d hd hc
      obtain ⟨e, he⟩ := h.free_contained ho how hd hc
      rw [he] at hok
      cases hok
    have ha : ∀ a o, b.FreeAt a o → a + blockSize o ≤ pa ∨ pa + blockSize order ≤ a := by
      intro a o hf
      by_contra hm
      have hout := hn ⟨a, o⟩ (h.freeAt_iff.mp hf)
      simp only [Block.Covers, Block.size_pageSize] at hout
      refine hov ⟨how, hro, fun a' o' hf' hin => ?_, a, o, hf, by omega, by omega⟩
      refine hn ⟨a', o'⟩ (h.freeAt_iff.mp hf') ?_
      simpa only [Block.Covers, Block.size_pageSize] using hin
    obtain ⟨b'', cells, lists', hf, hs', hho, hregions⟩ :=
      h.free_apart hh ho how fun d hd => by
        have := ha d.base d.order (h.freeAt_iff.mpr hd)
        simp only [Block.Apart, Block.size_pageSize]
        omega
    cases hf.symm.trans hok
    exact ⟨cells, lists', hs', hho, hregions, .inr ha⟩

theorem Sound.caught_iff (ho : order ≤ maxOrder) :
    b.Caught pa order ↔ ¬ b.Overlooks pa order := by
  constructor
  · intro hc hov
    obtain ⟨b', hf, hb⟩ := h.free_overlooked hh ho hov
    obtain ⟨-, -, -, a, o, ha, hlo, hhi⟩ := hov
    rcases (hc b' hf).1 with hs | hap
    · rw [hs] at hb
      simp only at hb
      omega
    · have := hap a o ha
      omega
  · intro hov b' hok
    obtain ⟨live', lists', hs', -, -, hca⟩ := h.free_cases hh hov hok
    exact ⟨hca, hs'.disjointFree⟩

end

end Buddy

/-! ### Runs in which anything is freed -/

namespace Sys

variable {s t : Sys} {call : Call}

/-- Ranges are disjoint and `u64`s, and a store goes where no block is free and does
not make the tag of any page. Any order is asked for and anything is freed. -/
def Unforged (s : Sys) : Call → Prop
  | .addRegion start len =>
    start < 2 ^ 64 ∧ len < 2 ^ 64 ∧ ∀ p ∈ s.offered, RangesApart (start, len) p
  | .alloc _ => True
  | .free _ _ => True
  | .write addr value => 8 ∣ addr ∧
      (∀ a o, s.buddy.FreeAt a o → ¬ (a ≤ addr ∧ addr < a + blockSize o)) ∧
      ∀ p o, pageSize ∣ p → o ≤ maxOrder → addr = p + offTag → value ≠ freeTag p o

/-- The calls that free nothing the scan overlooks. -/
def Attentive (s : Sys) : Call → Prop
  | .free pa order => ¬ s.buddy.Overlooks pa order
  | _ => True

/-- One such call that returns. -/
def MisfreeStep (s : Sys) (call : Call) (t : Sys) : Prop :=
  s.perform call = .ok t ∧ s.Unforged call ∧ s.Attentive call

/-- No page of the memory carries a tag. -/
def Untouched (mem : Nat → Nat) : Prop :=
  ∀ p o, pageSize ∣ p → o ≤ maxOrder → mem (p + offTag) ≠ freeTag p o

/-- The lists are sound and the only pages tagged are those on them. -/
structure Ready (s : Sys) : Prop where
  sound : ∃ held lists, s.buddy.Sound held lists ∧ s.buddy.Honest lists
  regions : ∀ r ∈ s.buddy.regions, r.1 < r.2 ∧ ∃ p ∈ s.offered, p.1 ≤ r.1 ∧ r.2 ≤ p.1 + p.2

namespace Ready

theorem init {mem : Nat → Nat} (hmem : Untouched mem) : (Sys.start mem).Ready := by
  refine ⟨?_, (Inv.init mem).regions⟩
  obtain ⟨lists, hs⟩ := (Inv.init mem).sound
  exact ⟨[], lists, hs, fun p o hp ho htag => absurd htag (hmem p o hp ho)⟩

theorem step (h : s.Ready) (hst : s.MisfreeStep call t) : t.Ready := by
  obtain ⟨held, lists, hs, hh⟩ := h.sound
  obtain ⟨hpe, hu, ha⟩ := hst
  cases call with
  | addRegion base len =>
    obtain ⟨b', hadd, heq⟩ := bind_eq_ok hpe
    cases heq
    obtain ⟨lists', hs', -, hh', hre⟩ :=
      hs.addRegion_sound (fresh_of_apart h.regions hu.2.2)
        (fun r hr => (h.regions r hr).1) hadd
    refine ⟨⟨held, lists', hs', hh' hh⟩, fun r hr => ?_⟩
    rcases hre r hr with hold | ⟨hlo, hlt, hhi⟩
    · obtain ⟨hlt, p, hp, hin⟩ := h.regions r hold
      exact ⟨hlt, p, List.mem_cons_of_mem _ hp, hin⟩
    · exact ⟨hlt, (base, len), List.mem_cons_self, hlo, hhi⟩
  | alloc order =>
    obtain ⟨⟨popped, b'⟩, hal, heq⟩ := bind_eq_ok hpe
    rcases hs.alloc_cases hal with
      ⟨rfl, rfl⟩ | ⟨pa, lists', rfl, hs', hre, -, hh'⟩
    · cases heq
      exact ⟨⟨held, lists, hs, hh⟩, h.regions⟩
    · cases heq
      refine ⟨⟨_, lists', hs', hh' hh⟩, ?_⟩
      simpa [hre] using h.regions
  | free pa order =>
    obtain ⟨b', hf, heq⟩ := bind_eq_ok hpe
    cases heq
    obtain ⟨held', lists', hs', hh', hre, -⟩ :=
      hs.free_cases hh ha hf
    refine ⟨⟨held', lists', hs', hh'⟩, ?_⟩
    simpa [hre] using h.regions
  | write addr value =>
    cases hpe
    obtain ⟨hs', hh'⟩ := hs.write_outside hh hu.2.1 hu.2.2
    exact ⟨⟨held, lists, hs', hh'⟩, h.regions⟩

theorem of_run {mem : Nat → Nat} {calls : List Call} (hmem : Untouched mem)
    (hrun : Run MisfreeStep (Sys.start mem) calls s) : s.Ready :=
  hrun.invariant (fun _ _ _ h hs => h.step hs) (init hmem)

theorem not_overlooks_page (h : s.Ready) (pa : Nat) : ¬ s.buddy.Overlooks pa 0 := by
  obtain ⟨_, _, hs, -⟩ := h.sound
  exact hs.not_overlooks_page pa

end Ready

/-- In every run that has overlooked nothing yet, a free of any block is caught if and
only if it is not one that the scan overlooks. -/
theorem overlapping_free_caught_iff {mem : Nat → Nat} {calls : List Call} (hmem : Untouched mem)
    (hrun : Run MisfreeStep (Sys.start mem) calls s) :
    s.buddy.DisjointFree ∧
      ∀ pa order, order ≤ maxOrder →
        (s.buddy.Caught pa order ↔ ¬ s.buddy.Overlooks pa order) := by
  obtain ⟨held, lists, hsound, hhonest⟩ := (Ready.of_run hmem hrun).sound
  exact ⟨hsound.disjointFree, fun pa order ho => hsound.caught_iff hhonest ho⟩

theorem untouched_zero : Untouched fun _ => 0 :=
  fun _ _ _ _ htag => freeTag_ne_zero _ _ htag.symm

/-- The calls of a run that frees and stores nothing. -/
def Call.takes : Call → Bool
  | .addRegion _ _ => true
  | .alloc _ => true
  | _ => false

theorem misfreeStep_of_takes
    (h : guarded (fun _ call => Call.takes call) Sys.step s call = some t) :
    s.MisfreeStep call t := by
  obtain ⟨hs, htakes⟩ := of_guarded h
  obtain ⟨hadm, hp⟩ := step_eq_some.mp hs
  cases call with
  | addRegion base len => exact ⟨hp, hadm, trivial⟩
  | alloc order => exact ⟨hp, trivial, trivial⟩
  | free pa order | write addr value => cases htakes

/-- Of two pages the lower one is taken. It may be given back, and the upper one, which
is free, may not. -/
theorem overlapping_free_caught_page :
    ∃ s, Run MisfreeStep (Sys.start fun _ => 0) [.addRegion 0 8192, .alloc 0] s ∧
      s.live = [⟨0, 0⟩] ∧ s.buddy.Caught 0 0 ∧ s.buddy.Caught 4096 0 := by
  refine exists_run (fun _ _ _ => misfreeStep_of_takes) (by decide +kernel)
    fun s hrun hlive => ⟨hlive, ?_⟩
  have hcaught := (overlapping_free_caught_iff untouched_zero hrun).2
  have hready := Ready.of_run untouched_zero hrun
  exact ⟨(hcaught 0 0 (by decide)).mpr (hready.not_overlooks_page 0),
    (hcaught 4096 0 (by decide)).mpr (hready.not_overlooks_page 4096)⟩

/-- The same two pages. The lower one is given back as if both had been taken: the scan
looks at its tag alone, and the upper page is on two lists at once. -/
theorem overlapping_free_missed :
    ∃ s, Run MisfreeStep (Sys.start fun _ => 0) [.addRegion 0 8192, .alloc 0] s ∧
      s.live = [⟨0, 0⟩] ∧ s.buddy.FreeAt 4096 0 ∧ ¬ s.buddy.Caught 0 1 ∧
      ∃ b', s.buddy.free 0 1 = .ok b' ∧ b'.FreeAt 0 1 ∧ b'.FreeAt 4096 0 := by
  refine exists_run (fun _ _ _ => misfreeStep_of_takes)
    (p := fun s => s.live = [⟨0, 0⟩] ∧ s.buddy.freeLists 0 = 4096 ∧
      s.buddy.next 4096 = NIL ∧ s.buddy.prev 4096 = NIL ∧
      (s.buddy.free 0 1).toOption.map (fun b => [b.freeLists 0, b.freeLists 1, b.next 0, b.prev 0,
        b.next 4096, b.prev 4096]) = some [4096, 0, NIL, NIL, NIL, NIL])
    (by decide +kernel) fun s hrun hfacts => ?_
  obtain ⟨hlive, hhead, hnext, hprev, hafter⟩ := hfacts
  obtain ⟨b', hb', hwords⟩ := Option.map_eq_some_iff.mp hafter
  simp only [List.cons.injEq, and_true] at hwords
  obtain ⟨hhead₀, hhead₁, hnext₁, hprev₁, hnext₀, hprev₀⟩ := hwords
  have hpage : ∀ {b : Buddy} {a o : Nat}, o ≤ maxOrder → a ≠ NIL → b.freeLists o = a →
      b.next a = NIL → b.prev a = NIL → b.FreeAt a o := by
    intro b a o ho ha hhead hnext hprev
    exact ⟨ho, [a], ⟨hhead, ha, hprev, hnext⟩, List.mem_cons_self⟩
  have hfree := ok_of_toOption hb'
  have hlow := hpage (by decide) (by decide) hhead₁ hnext₁ hprev₁
  have hhigh := hpage (by decide) (by decide) hhead₀ hnext₀ hprev₀
  refine ⟨hlive, hpage (by decide) (by decide) hhead hnext hprev, fun hcaught => ?_, b', hfree,
    hlow, hhigh⟩
  rcases (hcaught b' hfree).2 0 1 4096 0 hlow hhigh with ⟨heq, -⟩ | hsep | hsep
  · cases heq
  · exact absurd hsep (by decide)
  · exact absurd hsep (by decide)

end Sys

end Qunix.Mm
