/-
Adding a region.

`add_region` rounds a firmware range inwards to whole pages, records it and
carves it from the bottom into the largest naturally aligned blocks that fit.
`Carving b live lists addr limit` is the state of that loop: everything below
`addr` is tiled already, and nothing lies in `addr .. limit` yet.

The other outcomes only count bytes. `edgeDroppedBytes` and
`refusedRegionBytes` count parts of the ranges they were offered, so disjoint
ranges cannot make them overflow; `malformedRegionBytes` and `refusedRegions`
have no such bound.
-/

import Qunix.Mm.Partition

namespace Qunix.Mm

open Qunix.Lib Function

namespace Buddy

variable {b b' : Buddy} {live : List Block} {lists : Nat → List Nat} {addr limit start len : Nat}

/-! ### The block carved next -/

theorem trailingZeros_pageSize : trailingZeros 64 pageSize = 12 := by decide

theorem carveOrder_le (addr limit : Nat) : carveOrder addr limit ≤ maxOrder :=
  Nat.min_le_right _ _

theorem blockSize_carveOrder_dvd (ha : addr < 2 ^ 64)
    (hp : pageSize ∣ addr) : blockSize (carveOrder addr limit) ∣ addr := by
  have hle : carveOrder addr limit ≤ trailingZeros 64 addr - 12 := by
    exact (Nat.min_le_left _ _).trans (Nat.min_le_left _ _)
  rw [blockSize_eq_two_pow]
  by_cases h12 : 12 ≤ trailingZeros 64 addr
  · exact two_pow_dvd_of_trailingZeros ha (by omega)
  · rw [show carveOrder addr limit = 0 by omega]
    exact hp

theorem blockSize_carveOrder_le (hlt : addr < limit)
    (ha : pageSize ∣ addr) (hl : pageSize ∣ limit) :
    addr + blockSize (carveOrder addr limit) ≤ limit := by
  have hp : pageSize ∣ limit - addr := Nat.dvd_sub hl ha
  have hne : (limit - addr) / pageSize ≠ 0 := by
    have := Nat.div_pos (Nat.le_of_dvd (by omega) hp) pageSize_pos
    omega
  have hle : carveOrder addr limit ≤ Nat.log2 ((limit - addr) / pageSize) :=
    (Nat.min_le_left _ _).trans (Nat.min_le_right _ _)
  have hpow : 2 ^ carveOrder addr limit ≤ (limit - addr) / pageSize :=
    (Nat.pow_le_pow_right (by decide) hle).trans (Nat.log2_self_le hne)
  have hs : blockSize (carveOrder addr limit) ≤ limit - addr := by
    rw [blockSize_eq]
    exact (Nat.mul_le_mul_left _ hpow).trans (Nat.mul_div_le _ _)
  omega

theorem lt_carveOrder {o : Nat} (ho : o < maxOrder) (hdvd : blockSize (o + 1) ∣ addr)
    (hfit : addr + blockSize (o + 1) ≤ limit) : o < carveOrder addr limit := by
  have hmax : maxOrder < 32 := by decide
  have ha : o + 1 ≤ trailingZeros 64 addr - 12 := by
    rw [blockSize_eq_two_pow] at hdvd
    have := le_trailingZeros hdvd (w := 64) (by omega)
    omega
  have hp : 2 ^ (o + 1) ≤ (limit - addr) / pageSize := by
    rw [Nat.le_div_iff_mul_le pageSize_pos, Nat.mul_comm, ← blockSize_eq]
    omega
  have hlog : o + 1 ≤ Nat.log2 ((limit - addr) / pageSize) := by
    have hpos : (limit - addr) / pageSize ≠ 0 := by
      have := Nat.two_pow_pos (o + 1)
      omega
    exact (Nat.le_log2 hpos).mpr hp
  rw [carveOrder, trailingZeros_pageSize]
  omega

/-! ### The carving loop -/

structure Carving (b : Buddy) (live : List Block) (lists : Nat → List Nat) (addr limit : Nat) : Prop
    extends Threaded b live lists where
  untagged : Untagged b live
  covers : ∀ r ∈ b.regions, ∀ x, r.1 ≤ x → x < r.2 →
    (addr ≤ x ∧ x < limit) ∨ ∃ c ∈ live ++ freeBlocks lists, c.Covers pageSize x
  clear : ∀ c ∈ live ++ freeBlocks lists, c.base + c.size pageSize ≤ addr ∨ limit ≤ c.base
  region : ∃ r ∈ b.regions, r.1 ≤ addr ∧ r.2 = limit
  addr_dvd : pageSize ∣ addr
  limit_dvd : pageSize ∣ limit
  freeBytes : b.freeBytes = listedBytes lists
  regionsLimit : ∀ r ∈ b.regions, r.2 < 2 ^ 64

namespace Carving

variable {o : Nat}

section

variable (h : Carving b live lists addr limit)

include h

theorem take (hdvd : blockSize o ∣ addr)
    (hfit : addr + blockSize o ≤ limit) : Threaded b (⟨addr, o⟩ :: live) lists := by
  obtain ⟨r, hr, hlo, rfl⟩ := h.region
  refine ⟨h.packing.cons ?_ ⟨r, hr, hlo, ?_⟩ fun c hc => ?_, h.linked, h.tagged, h.nonempty⟩
  · simpa only [Block.Aligned, Block.size_pageSize] using hdvd
  · simpa only [Block.size_pageSize] using hfit
  · have := h.clear c hc
    simp only [Block.Apart, Block.size_pageSize] at this ⊢
    omega

theorem step (ho : o ≤ maxOrder)
    (hdvd : blockSize o ∣ addr) (hfit : addr + blockSize o ≤ limit) :
    Carving { b.push addr o with freeBytes := b.freeBytes + blockSize o } live
      (update lists o (addr :: lists o)) (addr + blockSize o) limit := by
  have ht := h.take hdvd hfit
  have hp := ht.push ho
  have hmem : ∀ c, c ∈ live ++ freeBlocks (update lists o (addr :: lists o)) ↔
      c = ⟨addr, o⟩ ∨ c ∈ live ++ freeBlocks lists := fun c => by
    rw [← (Threaded.perm_push ho).mem_iff, List.cons_append, List.mem_cons]
  refine ⟨⟨hp.packing, hp.linked, hp.tagged, hp.nonempty⟩,
    ht.untagged_push ho h.untagged, fun r hr x hlo hhi => ?_, fun c hc => ?_, ?_, ?_,
    h.limit_dvd, ?_, ?_⟩
  · rcases h.covers r (by simpa using hr) x hlo hhi with hin | ⟨c, hc, hcx⟩
    · by_cases hx : x < addr + blockSize o
      · exact .inr ⟨⟨addr, o⟩, (hmem _).mpr (.inl rfl), hin.1, by
          simpa only [Block.size_pageSize] using hx⟩
      · exact .inl ⟨Nat.le_of_not_lt hx, hin.2⟩
    · exact .inr ⟨c, (hmem _).mpr (.inr hc), hcx⟩
  · rcases (hmem c).mp hc with rfl | hc
    · exact .inl (by rw [Block.size_pageSize])
    · have := h.clear c hc
      omega
  · obtain ⟨r, hr, hlo, hl⟩ := h.region
    exact ⟨r, by simpa using hr, by omega, hl⟩
  · exact Nat.dvd_add h.addr_dvd (pageSize_dvd_blockSize o)
  · rw [listedBytes_push ho, h.freeBytes, Nat.add_comm]
  · simpa using h.regionsLimit

theorem freeBytes_add_lt (hdvd : blockSize o ∣ addr)
    (hfit : addr + blockSize o ≤ limit) : b.freeBytes + blockSize o < 2 ^ 64 := by
  have ht := h.take hdvd hfit
  have hend : ∀ c ∈ (⟨addr, o⟩ :: live) ++ freeBlocks lists,
      c.base + c.size pageSize ≤ 2 ^ 64 - 1 := by
    intro c hc
    obtain ⟨r, hr, -, hhi⟩ := ht.packing.inside c hc
    have := h.regionsLimit r hr
    omega
  have hsum := ht.packing.sum_size_le hend
  simp only [List.map_cons, List.map_append, List.sum_cons, List.sum_append, Block.size_pageSize]
    at hsum
  have hl : listedBytes lists = ((freeBlocks lists).map (Block.size pageSize)).sum := rfl
  rw [h.freeBytes]
  omega

end

/-- The loop ends with the whole region tiled, by blocks of the orders it chose. -/
theorem run (pages : Nat) (h : Carving b live lists addr limit)
    (hp : limit ≤ addr + pages * pageSize) :
    ∃ b' lists', b.carve addr limit pages = .ok b' ∧ Partition b' live lists' ∧
      b'.freeBytes = listedBytes lists' ∧ b'.regions = b.regions ∧ b'.counters = b.counters ∧
      (∀ c ∈ freeBlocks lists', c ∈ freeBlocks lists ∨
        (addr ≤ c.base ∧ c.base < limit ∧ c.order = carveOrder c.base limit)) ∧
      (Honest b lists → Honest b' lists') := by
  have hd : ∀ {b lists addr}, Carving b live lists addr limit → limit ≤ addr →
      Partition b live lists := fun h hle =>
    ⟨h.toThreaded, h.untagged, fun r hr x hlo hhi =>
      (h.covers r hr x hlo hhi).resolve_left fun hin => by omega⟩
  induction pages generalizing b lists addr with
  | zero =>
    exact ⟨b, lists, rfl, hd h (by omega), h.freeBytes, rfl, rfl, fun c hc => .inl hc, id⟩
  | succ pages ih =>
    rw [carve]
    split_ifs with hlt
    · have ha : addr < 2 ^ 64 := by
        obtain ⟨r, hr, -, rfl⟩ := h.region
        have := h.regionsLimit r hr
        omega
      have hdvd : blockSize (carveOrder addr limit) ∣ addr :=
        blockSize_carveOrder_dvd ha h.addr_dvd
      have hfit := blockSize_carveOrder_le hlt h.addr_dvd h.limit_dvd
      have hpage := pageSize_le_blockSize (carveOrder addr limit)
      obtain ⟨b', lists', hrun, hpa, hf, hre, hco, hnew, hho⟩ :=
        ih (h.step (carveOrder_le addr limit) hdvd hfit) (by rw [Nat.succ_mul] at hp; omega)
      refine ⟨b', lists', ?_, hpa, hf, hre.trans push_regions,
        hco.trans push_counters, fun c hc => ?_, fun hh => ?_⟩
      · simp only [push_freeBytes, addU64_ok (h.freeBytes_add_lt hdvd hfit)]
        exact hrun
      · rcases hnew c hc with hold | ⟨hlo, hhi, ho⟩
        · rw [(freeBlocks_cons_perm (carveOrder_le addr limit)).mem_iff, List.mem_cons] at hold
          rcases hold with rfl | hold
          · exact .inr ⟨le_rfl, hlt, rfl⟩
          · exact .inl hold
        · exact .inr ⟨by omega, hhi, ho⟩
      · exact hho (hh.push (carveOrder_le addr limit) h.addr_dvd
          (h.head_dvd (carveOrder_le addr limit)))
    · exact ⟨b, lists, rfl, hd h (by omega), h.freeBytes, rfl, rfl, fun c hc => .inl hc, id⟩

end Carving

/-! ### The whole call -/

theorem rounded_range (ha : checkedNextMultipleOf start pageSize = some addr)
    (hl : checkedAdd start len = some limit) :
    pageSize ∣ addr ∧ start ≤ addr ∧ limit = start + len ∧ limit < 2 ^ 64 ∧
      pageSize ∣ limit &&& notU 64 (pageSize - 1) ∧ limit &&& notU 64 (pageSize - 1) ≤ limit := by
  obtain ⟨hdvd, hle, -⟩ := checkedNextMultipleOf_eq_some pageSize_pos ha
  obtain ⟨rfl, hlt⟩ := checkedAdd_eq_some hl
  have hr := and_notU_two_pow_sub_one (k := 12) hlt
  have hpow : (2 : Nat) ^ 12 = pageSize := rfl
  rw [hpow] at hr
  rw [hr]
  exact ⟨hdvd, hle, rfl, hlt, Nat.dvd_mul_left _ _, Nat.div_mul_le_self _ _⟩

/-- The whole pages of a range, from the first to the end of the last. -/
def wholePages (start len : Nat) : Option (Nat × Nat) :=
  match checkedNextMultipleOf start pageSize, checkedAdd start len with
  | some addr, some limit =>
    let last := limit &&& notU 64 (pageSize - 1)
    if last ≤ addr then none else some (addr, last)
  | _, _ => none

/-- `addr .. last` is all of the range that is whole pages. -/
structure WholePages (start len addr last : Nat) : Prop where
  addr_dvd : pageSize ∣ addr
  last_dvd : pageSize ∣ last
  start_le : start ≤ addr
  addr_lt : addr < start + pageSize
  lt : addr < last
  last_le : last ≤ start + len
  limit_lt : start + len < last + pageSize
  word : start + len < 2 ^ 64

theorem wholePages_eq_some {last : Nat} (h : wholePages start len = some (addr, last)) :
    WholePages start len addr last := by
  unfold wholePages at h
  split at h
  · rename_i addr' limit ha hl
    obtain ⟨hne, heq⟩ := Option.ite_none_left_eq_some.mp h
    cases heq
    obtain ⟨hdvd, hle, rfl, hlt, hr, hla⟩ := rounded_range ha hl
    obtain ⟨-, -, hn⟩ := checkedNextMultipleOf_eq_some pageSize_pos ha
    refine ⟨hdvd, hr, hle, hn, Nat.lt_of_not_le hne, hla, ?_, hlt⟩
    rw [show pageSize = 2 ^ 12 from rfl, and_notU_two_pow_sub_one hlt]
    omega
  · cases h

theorem addRegion_eq (b : Buddy) (start len : Nat) :
    b.addRegion start len =
      (match wholePages start len with
      | none => b.malformed len
      | some (addr, last) => do
        let slop ← addU64 (addr - start) (start + len - last)
        let edge ← addU64 b.edgeDroppedBytes slop
        let b := { b with edgeDroppedBytes := edge }
        if b.regions.length = maxRegions then do
          let bytes ← addU64 b.refusedRegionBytes (last - addr)
          let count ← addU32 b.refusedRegions 1
          pure { b with refusedRegionBytes := bytes, refusedRegions := count }
        else
          let b := { b with regions := b.regions ++ [(addr, last)] }
          b.carve addr last ((last - addr) / pageSize)) := by
  cases ha : checkedNextMultipleOf start pageSize with
  | none => simp [addRegion, wholePages, ha]
  | some addr =>
    cases hl : checkedAdd start len with
    | none => simp [addRegion, wholePages, hl]
    | some limit =>
      obtain ⟨rfl, -⟩ := checkedAdd_eq_some hl
      simp only [addRegion, wholePages, ha, hl]
      by_cases hle : start + len &&& notU 64 (pageSize - 1) ≤ addr
      · rw [if_pos hle, if_pos hle]
      · rw [if_neg hle, if_neg hle]

/-- The counters a call may never move. -/
def rejections (b : Buddy) : List Nat := [b.foreignFrees, b.rejectedUnlinks, b.truncatedLists]

theorem rejections_of_counters (h : b'.counters = b.counters) : b'.rejections = b.rejections := by
  simp only [counters, rejections, List.cons.injEq] at h ⊢
  tauto

/-- The bytes of accepted or refused ranges counted as lost. -/
def lostBytes (b : Buddy) : Nat := b.edgeDroppedBytes + b.refusedRegionBytes

theorem lostBytes_of_counters (h : b'.counters = b.counters) : b'.lostBytes = b.lostBytes := by
  simp only [counters, lostBytes, List.cons.injEq] at h ⊢
  omega

/-- What a call of `addRegion` may do: it returns with everything but the
range's own bytes as before, or a counter has no room for them. -/
def AddOutcome (b : Buddy) (live : List Block) (start len : Nat) : Prop :=
  (∃ b' lists', b.addRegion start len = .ok b' ∧ Sound b' live lists' ∧
    b'.rejections = b.rejections ∧
    (b'.lostBytes ≤ b.lostBytes + if start + len < 2 ^ 64 then len else 0) ∧
    ∀ r ∈ b'.regions, r ∈ b.regions ∨ (start ≤ r.1 ∧ r.1 < r.2 ∧ r.2 ≤ start + len)) ∨
  (b.addRegion start len = .error .overflow ∧
    (2 ^ 64 ≤ b.malformedRegionBytes + len ∨ 2 ^ 32 ≤ b.refusedRegions + 1))

namespace Sound

/-- Sound states differ from one another only in what the invariant reads. -/
theorem congr (h : Sound b live lists) (hmem : b'.mem = b.mem)
    (hh : b'.freeLists = b.freeLists) (hm : b'.nonempty = b.nonempty)
    (hr : b'.regions = b.regions) (hf : b'.freeBytes = b.freeBytes) :
    Sound b' live lists :=
  ⟨h.toPartition.congr hmem hh hm hr, h.orders, hf.trans h.freeBytes,
    hr ▸ h.regionsApart, hr ▸ h.regionsLimit⟩

variable {last : Nat}

/-- The blocks of a fresh region were chosen as large as they could be, and none
of them shares a cell with a block of another region. -/
theorem coalesced_carve {rs : List (Nat × Nat)} {lists' : Nat → List Nat} (hc : Coalesced rs lists)
    (hi : ∀ c ∈ freeBlocks lists, ∃ r ∈ rs, r.1 ≤ c.base ∧ c.base + c.size pageSize ≤ r.2)
    (hf : ∀ r ∈ rs, r.2 ≤ addr ∨ last ≤ r.1)
    (hnew : ∀ c ∈ freeBlocks lists', c ∈ freeBlocks lists ∨
      (addr ≤ c.base ∧ c.base < last ∧ c.order = carveOrder c.base last)) :
    Coalesced (rs ++ [(addr, last)]) lists' := by
  rintro o z ho hz ⟨r, hr, hlo, hhi⟩ hl hu
  rw [← blockSize_eq] at hz hhi hu
  have hsu := blockSize_succ o
  have hpos := blockSize_pos o
  rcases List.mem_append.mp hr with hr | hr
  · have hold : ∀ {a}, r.1 ≤ a → a < r.2 → (⟨a, o⟩ : Block) ∈ freeBlocks lists' →
        (⟨a, o⟩ : Block) ∈ freeBlocks lists := by
      intro a hra har hmem
      refine (hnew _ hmem).resolve_right fun ⟨hlo, hhi, _⟩ => ?_
      have := hf r hr
      simp only at hlo hhi
      omega
    have := hc o z ho (blockSize_eq _ ▸ hz) ⟨r, hr, hlo, blockSize_eq _ ▸ hhi⟩
      (hold (by omega) (by omega) hl)
    rw [← blockSize_eq] at this
    exact this (hold (by omega) (by omega) hu)
  · rw [List.mem_singleton.mp hr] at hlo hhi
    simp only at hlo hhi
    rcases hnew _ hl with hold | ⟨-, -, hor⟩
    · obtain ⟨s, hs, hslo, hshi⟩ := hi _ hold
      have := hf s hs
      simp only [Block.size_pageSize] at hslo hshi
      omega
    · have := lt_carveOrder ho hz hhi
      simp only at hor
      omega

theorem carve_new (h : Sound b live lists) (ha : pageSize ∣ addr) (hla : pageSize ∣ last)
    (hlt : addr < last) (hli : last < 2 ^ 64) (hf : ∀ r ∈ b.regions, r.2 ≤ addr ∨ last ≤ r.1) :
    ∃ b' lists', { b with regions := b.regions ++ [(addr, last)] }.carve addr last
        ((last - addr) / pageSize) = .ok b' ∧ Sound b' live lists' ∧
      b'.regions = b.regions ++ [(addr, last)] ∧ b'.counters = b.counters ∧
      (Coalesced b.regions lists → Coalesced b'.regions lists') ∧
      (Honest b lists → Honest b' lists') := by
  let b₀ := { b with regions := b.regions ++ [(addr, last)] }
  have hl : ∀ r ∈ b₀.regions, r.2 < 2 ^ 64 := by
    intro r hr
    rcases List.mem_append.mp hr with hr | hr
    · exact h.regionsLimit r hr
    · rw [List.mem_singleton.mp hr]
      exact hli
  have hca : Carving b₀ live lists addr last := by
    refine ⟨⟨h.packing.mono (List.subset_append_left _ _), h.linked, h.tagged, h.nonempty⟩,
      h.untagged, fun r hr x hlo hhi => ?_, fun c hc => ?_, ⟨(addr, last), by simp [b₀], ?_, rfl⟩,
      ha, hla, h.freeBytes, hl⟩
    · rcases List.mem_append.mp hr with hr | hr
      · exact .inr (h.covers r hr x hlo hhi)
      · rw [List.mem_singleton.mp hr] at hlo hhi
        exact .inl ⟨hlo, hhi⟩
    · obtain ⟨r, hr, hlo, hhi⟩ := h.packing.inside c hc
      have := hf r hr
      omega
    · exact le_rfl
  have hp : last ≤ addr + (last - addr) / pageSize * pageSize := by
    rw [Nat.div_mul_cancel (Nat.dvd_sub hla ha)]
    omega
  obtain ⟨b', lists', hrun, hpa, hfr, hre, hco, hnew, hh⟩ :=
    hca.run _ hp
  refine ⟨b', lists', hrun, ⟨hpa, h.orders, hfr, ?_, ?_⟩, hre, hco, fun hc => ?_,
    hh⟩
  · rw [hre]
    refine List.pairwise_append.mpr ⟨h.regionsApart, by simp, fun r hr s hs => ?_⟩
    rw [List.mem_singleton.mp hs]
    exact hf r hr
  · exact hre ▸ hl
  · rw [hre]
    exact coalesced_carve hc (fun c hc => h.packing.inside c (List.mem_append_right _ hc)) hf hnew

/-- `addRegion` on a range that meets no recorded region, when the bytes lost so
far leave room for the range. -/
theorem addRegion_outcome (h : Sound b live lists)
    (hfr : ∀ r ∈ b.regions, min r.2 (start + len) ≤ max r.1 start)
    (hn : ∀ r ∈ b.regions, r.1 < r.2)
    (hl : start + len < 2 ^ 64 → b.lostBytes + len < 2 ^ 64) : AddOutcome b live start len := by
  have heq := b.addRegion_eq start len
  cases hwh : wholePages start len with
  | none =>
    rw [hwh] at heq
    by_cases hro : b.malformedRegionBytes + len < 2 ^ 64
    · refine .inl ⟨{ b with malformedRegionBytes := b.malformedRegionBytes + len }, lists, ?_,
        h.congr rfl rfl rfl rfl rfl, rfl, Nat.le_add_right _ _, fun r hr => .inl hr⟩
      rw [heq, malformed, addU64_ok hro]
      rfl
    · refine .inr ⟨?_, .inl (Nat.le_of_not_lt hro)⟩
      rw [heq, malformed, addU64, if_neg hro]
      rfl
  | some p =>
    obtain ⟨addr, last⟩ := p
    obtain ⟨ha, hla, hs, -, hlt, hli, -, hw⟩ := wholePages_eq_some hwh
    simp only [lostBytes] at hl
    have hsl : addU64 (addr - start) (start + len - last) =
        .ok (addr - start + (start + len - last)) := addU64_ok (by omega)
    have he : addU64 b.edgeDroppedBytes (addr - start + (start + len - last)) =
        .ok (b.edgeDroppedBytes + (addr - start + (start + len - last))) := addU64_ok (by omega)
    have hb : addU64 b.refusedRegionBytes (last - addr) =
        .ok (b.refusedRegionBytes + (last - addr)) := addU64_ok (by omega)
    simp only [hwh, hsl, bind, Except.bind, he, hb] at heq
    by_cases hf : b.regions.length = maxRegions
    · rw [if_pos hf] at heq
      by_cases hro : b.refusedRegions + 1 < 2 ^ 32
      · rw [addU32, if_pos hro] at heq
        refine .inl ⟨_, lists, heq, h.congr rfl rfl rfl rfl rfl, rfl, ?_, fun r hr => .inl hr⟩
        simp only [lostBytes, if_pos hw]
        omega
      · rw [addU32, if_neg hro] at heq
        exact .inr ⟨heq, .inr (Nat.le_of_not_lt hro)⟩
    · rw [if_neg hf] at heq
      have hso : Sound { b with edgeDroppedBytes :=
          b.edgeDroppedBytes + (addr - start + (start + len - last)) } live lists :=
        h.congr rfl rfl rfl rfl rfl
      obtain ⟨b', lists', hrun, hs', hregions, hc, -⟩ :=
        hso.carve_new ha hla hlt (by omega) fun r hr => by
          have := hfr r hr
          have := hn r hr
          omega
      have hre := rejections_of_counters hc
      refine .inl ⟨b', lists', heq.trans hrun, hs', hre, ?_, fun r hr => ?_⟩
      · rw [lostBytes_of_counters hc]
        simp only [lostBytes, if_pos hw]
        omega
      · rw [hregions] at hr
        rcases List.mem_append.mp hr with hr | hr
        · exact .inl hr
        · rw [List.mem_singleton.mp hr]
          exact .inr ⟨hs, hlt, hli⟩

end Sound

end Buddy

end Qunix.Mm
