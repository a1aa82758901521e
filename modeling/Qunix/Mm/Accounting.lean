/-
The bytes of every range offered to the allocator (`add_region` and
`dropped_bytes` in `crates/qunix-mm/src/buddy.rs`).

A range has no whole page and is malformed, or it finds the table of regions full
and is refused, or it is carved; in each case its length goes to the four totals,
and nothing else does (`Billed`). The ranges may overlap. The totals stay words when
the lengths together do; the one sum that may still overflow is the number of
refused regions, which is a 32-bit word.
-/

import Qunix.Lib.Run
import Qunix.Mm.Carve

namespace Qunix.Mm

open Qunix.Lib Function

/-! ### The carving loop -/

/-- The blocks that the loop takes, in order. -/
def carved (addr limit : Nat) : Nat → List Block
  | 0 => []
  | pages + 1 =>
    if addr < limit then
      ⟨addr, Buddy.carveOrder addr limit⟩ ::
        carved (addr + blockSize (Buddy.carveOrder addr limit)) limit pages
    else []

section Loop

variable {addr limit : Nat}

theorem carve_turn (ha : pageSize ∣ addr) (hl : pageSize ∣ limit) (hw : limit < 2 ^ 64)
    (hlt : addr < limit) :
    blockSize (Buddy.carveOrder addr limit) ∣ addr ∧
      addr + blockSize (Buddy.carveOrder addr limit) ≤ limit ∧
      pageSize ∣ addr + blockSize (Buddy.carveOrder addr limit) ∧
      pageSize ≤ blockSize (Buddy.carveOrder addr limit) :=
  ⟨Buddy.blockSize_carveOrder_dvd (by omega) ha,
    Buddy.blockSize_carveOrder_le hlt ha hl,
    Nat.dvd_add ha (pageSize_dvd_blockSize _), pageSize_le_blockSize _⟩

/-- The blocks tile the range, with as many turns as it has pages. -/
theorem carved_tiling (pages : Nat) (ha : pageSize ∣ addr) (hl : pageSize ∣ limit)
    (hw : limit < 2 ^ 64) (hle : addr ≤ limit) (hp : limit ≤ addr + pages * pageSize) :
    Tiling pageSize [(addr, limit)] (carved addr limit pages) ∧
      ((carved addr limit pages).map (Block.size pageSize)).sum = limit - addr := by
  induction pages generalizing addr with
  | zero =>
    have he : limit ≤ addr := by omega
    refine ⟨Tiling.nil_of_le he, ?_⟩
    simp [carved, Nat.sub_eq_zero_of_le he]
  | succ pages ih =>
    by_cases hlt : addr < limit
    · obtain ⟨hdvd, hfit, hn, hpa⟩ := carve_turn ha hl hw hlt
      rw [Nat.succ_mul] at hp
      obtain ⟨ht, hsum⟩ := ih hn hfit (by omega)
      rw [carved, if_pos hlt]
      rw [blockSize_eq] at hdvd hfit ht hsum ⊢
      refine ⟨ht.cons_below hdvd hfit, ?_⟩
      rw [List.map_cons, List.sum_cons, hsum, Block.size_mk]
      omega
    · rw [carved, if_neg hlt]
      refine ⟨Tiling.nil_of_le (Nat.le_of_not_lt hlt), ?_⟩
      simp [Nat.sub_eq_zero_of_le (Nat.le_of_not_lt hlt)]

namespace Buddy

variable {b b' : Buddy}

/-- The blocks go to their free lists one by one. -/
def pushAll (b : Buddy) (blocks : List Block) : Buddy :=
  blocks.foldl
    (fun b c => { b.push c.base c.order with freeBytes := b.freeBytes + blockSize c.order }) b

theorem pushAll_spec (b : Buddy) (blocks : List Block) :
    (b.pushAll blocks).regions = b.regions ∧ (b.pushAll blocks).counters = b.counters ∧
      (b.pushAll blocks).freeBytes = b.freeBytes + (blocks.map (Block.size pageSize)).sum := by
  induction blocks generalizing b with
  | nil => exact ⟨rfl, rfl, rfl⟩
  | cons c blocks ih =>
    obtain ⟨hr, hc, hf⟩ :=
      ih { b.push c.base c.order with freeBytes := b.freeBytes + blockSize c.order }
    refine ⟨hr.trans push_regions, hc.trans push_counters, hf.trans ?_⟩
    rw [List.map_cons, List.sum_cons, Block.size_pageSize, Nat.add_assoc]

theorem carve_eq (pages : Nat)
    (hr : b.freeBytes + ((carved addr limit pages).map (Block.size pageSize)).sum < 2 ^ 64) :
    b.carve addr limit pages = .ok (b.pushAll (carved addr limit pages)) := by
  induction pages generalizing b addr with
  | zero => rfl
  | succ pages ih =>
    by_cases hlt : addr < limit
    · rw [carved, if_pos hlt] at hr ⊢
      rw [List.map_cons, List.sum_cons, Block.size_mk, ← blockSize_eq] at hr
      rw [carve, if_pos hlt]
      simp only [push_freeBytes]
      rw [addU64_ok (by omega)]
      exact ih (by simp only; omega)
    · rw [carved, if_neg hlt, carve, if_neg hlt]
      rfl

/-- The loop ends by its own condition: more turns change nothing. -/
theorem carve_turns {pages turns : Nat} (ha : pageSize ∣ addr) (hl : pageSize ∣ limit)
    (hw : limit < 2 ^ 64) (hp : limit ≤ addr + pages * pageSize) (ht : pages ≤ turns) :
    b.carve addr limit turns = b.carve addr limit pages := by
  induction pages generalizing b addr turns with
  | zero =>
    have hlt : ¬ addr < limit := by omega
    cases turns with
    | zero => rfl
    | succ turns => exact if_neg hlt
  | succ pages ih =>
    obtain ⟨turns, rfl⟩ : ∃ n, turns = n + 1 := ⟨turns - 1, by omega⟩
    rw [carve, carve]
    by_cases hlt : addr < limit
    · obtain ⟨-, -, hn, hpa⟩ := carve_turn ha hl hw hlt
      rw [Nat.succ_mul] at hp
      rw [if_pos hlt, if_pos hlt]
      simp only
      congr 1
      funext freeBytes
      exact ih hn (by omega) (by omega)
    · rw [if_neg hlt, if_neg hlt]

end Buddy

end Loop

namespace Buddy

variable {b b' : Buddy} {start len : Nat}

/-! ### One call -/

/-- The four totals together. -/
def accounted (b : Buddy) : Nat :=
  b.freeBytes + b.edgeDroppedBytes + b.refusedRegionBytes + b.malformedRegionBytes

/-- The ranges with a whole page that were offered. -/
def tally (b : Buddy) : Nat := b.refusedRegions + b.regions.length

/-- A region before it is carved. -/
def accept (b : Buddy) (len addr last : Nat) : Buddy :=
  { b with
    edgeDroppedBytes := b.edgeDroppedBytes + (len - (last - addr))
    regions := b.regions ++ [(addr, last)] }

theorem accounted_pushAll (b : Buddy) (blocks : List Block) :
    (b.pushAll blocks).accounted = b.accounted + (blocks.map (Block.size pageSize)).sum := by
  obtain ⟨-, hc, hf⟩ := pushAll_spec b blocks
  simp only [counters, List.cons.injEq] at hc
  simp only [accounted, hf, hc]
  omega

theorem tally_pushAll (b : Buddy) (blocks : List Block) : (b.pushAll blocks).tally = b.tally := by
  obtain ⟨hr, hc, -⟩ := pushAll_spec b blocks
  simp only [counters, List.cons.injEq] at hc
  simp [tally, hr, hc]

theorem accounted_admit (b : Buddy) (len addr last : Nat) :
    (b.accept len addr last).accounted = b.accounted + (len - (last - addr)) := by
  simp only [accounted, accept]
  omega

theorem tally_admit (b : Buddy) (len addr last : Nat) :
    (b.accept len addr last).tally = b.tally + 1 := by
  simp only [tally, accept, List.length_append, List.length_singleton]
  omega

/-- Where the length of a range goes. -/
inductive Billed (b : Buddy) (start len : Nat) : Buddy → Prop where
  | malformed : wholePages start len = none →
      Billed b start len { b with malformedRegionBytes := b.malformedRegionBytes + len }
  | refused {addr last : Nat} : wholePages start len = some (addr, last) →
      b.regions.length = maxRegions →
      Billed b start len { b with
        edgeDroppedBytes := b.edgeDroppedBytes + (len - (last - addr))
        refusedRegionBytes := b.refusedRegionBytes + (last - addr)
        refusedRegions := b.refusedRegions + 1 }
  | accepted {addr last : Nat} : wholePages start len = some (addr, last) →
      b.regions.length < maxRegions →
      Billed b start len
        ((b.accept len addr last).pushAll (carved addr last ((last - addr) / pageSize)))

theorem carved_pages {addr last : Nat} (h : WholePages start len addr last) :
    Tiling pageSize [(addr, last)] (carved addr last ((last - addr) / pageSize)) ∧
      ((carved addr last ((last - addr) / pageSize)).map (Block.size pageSize)).sum =
        last - addr := by
  refine carved_tiling _ h.addr_dvd h.last_dvd (Nat.lt_of_le_of_lt h.last_le h.word)
    (Nat.le_of_lt h.lt) ?_
  rw [Nat.div_mul_cancel (Nat.dvd_sub h.last_dvd h.addr_dvd)]
  omega

namespace Billed

theorem accounted_eq (h : Billed b start len b') : b'.accounted = b.accounted + len := by
  cases h with
  | malformed => simp [accounted, Nat.add_assoc]
  | refused hw =>
    have h := wholePages_eq_some hw
    have := h.start_le
    have := h.last_le
    simp only [accounted]
    omega
  | accepted hw =>
    have h := wholePages_eq_some hw
    have := h.start_le
    have := h.last_le
    obtain ⟨-, hsum⟩ := carved_pages h
    rw [accounted_pushAll, accounted_admit, hsum]
    omega

theorem tally_eq (h : Billed b start len b') :
    b'.tally = b.tally + if (wholePages start len).isSome then 1 else 0 := by
  cases h with
  | malformed hw => simp [tally, hw]
  | refused hw =>
    simp only [tally, hw, Option.isSome_some, if_true]
    omega
  | accepted hw => rw [tally_pushAll, tally_admit, hw, Option.isSome_some, if_pos rfl]

end Billed

/-- No region is refused while the table has room. -/
structure Filling (b : Buddy) : Prop where
  length_le : b.regions.length ≤ maxRegions
  refused : b.regions.length < maxRegions → b.refusedRegions = 0

theorem Billed.filling (h : Billed b start len b') (f : Filling b) : Filling b' := by
  cases h with
  | malformed => exact ⟨f.length_le, f.refused⟩
  | refused _ hf =>
    refine ⟨f.length_le, fun hlt => ?_⟩
    simp [hf] at hlt
  | @accepted addr last _ hlt =>
    obtain ⟨hr, hc, -⟩ := pushAll_spec (b.accept len addr last)
      (carved addr last ((last - addr) / pageSize))
    simp only [counters, List.cons.injEq] at hc
    have hco : (b.accept len addr last).refusedRegions = 0 := f.refused hlt
    constructor
    · rw [hr]
      simp only [accept, List.length_append, List.length_singleton]
      omega
    · simp [hc, hco]

/-- A call whose length the totals have room for fails only on the count of refused
regions. -/
theorem Filling.addRegion_billed (f : Filling b) (start : Nat) (hr : b.accounted + len < 2 ^ 64)
    (ht : b.tally < 2 ^ 32 + maxRegions) :
    (∃ b', b.addRegion start len = .ok b' ∧ Billed b start len b' ∧
      b'.tally < 2 ^ 32 + maxRegions) ∨
      (b.addRegion start len = .error .overflow ∧ (wholePages start len).isSome ∧
        2 ^ 32 + maxRegions ≤ b.tally + 1) := by
  rw [addRegion_eq]
  simp only [accounted] at hr
  cases hw : wholePages start len with
  | none =>
    refine .inl ⟨_, ?_, .malformed hw, ht⟩
    simp only [Buddy.malformed]
    rw [addU64_ok (by omega)]
    rfl
  | some p =>
    obtain ⟨addr, last⟩ := p
    have h := wholePages_eq_some hw
    have hle := h.start_le
    have hla := h.last_le
    have hlt := h.lt
    have hs : addr - start + (start + len - last) = len - (last - addr) := by omega
    simp only
    rw [addU64_ok (by omega), bind_of_eq_ok rfl, hs, addU64_ok (by omega), bind_of_eq_ok rfl]
    by_cases hf : b.regions.length = maxRegions
    · rw [if_pos hf, addU64_ok (by omega)]
      by_cases hc : b.refusedRegions + 1 < 2 ^ 32
      · refine .inl ⟨_, ?_, .refused hw hf, ?_⟩
        · simp only [addU32, if_pos hc]
          rfl
        · simp only [tally, hf]
          omega
      · refine .inr ⟨?_, rfl, ?_⟩
        · simp only [addU32, if_neg hc]
          rfl
        · simp only [tally, hf]
          omega
    · rw [if_neg hf]
      have hl := Nat.lt_of_le_of_ne f.length_le hf
      have hca : (b.accept len addr last).carve addr last ((last - addr) / pageSize) =
          .ok ((b.accept len addr last).pushAll (carved addr last ((last - addr) / pageSize))) := by
        refine carve_eq _ ?_
        rw [(carved_pages h).2]
        simp only [accept]
        omega
      refine .inl ⟨_, hca, .accepted hw hl, ?_⟩
      rw [tally_pushAll, tally_admit, tally, f.refused hl]
      omega

/-! ### Whole maps -/

/-- The calls for the entries of a map. -/
def addRegions (b : Buddy) (entries : List (Nat × Nat)) : Except Panic Buddy :=
  entries.foldlM (fun b e => b.addRegion e.1 e.2) b

theorem addRegions_append (b : Buddy) (xs ys : List (Nat × Nat)) :
    b.addRegions (xs ++ ys) = b.addRegions xs >>= fun b => b.addRegions ys :=
  List.foldlM_append

/-- The entries with a whole page. -/
def paged (entries : List (Nat × Nat)) : Nat := entries.countP fun e => (wholePages e.1 e.2).isSome

theorem filling_new (mem : Nat → Nat) : Filling (.new mem) :=
  ⟨Nat.zero_le _, fun _ => rfl⟩

/-- The calls return exactly as long as the refused regions can be counted. -/
theorem Filling.addRegions_cases (f : Filling b) (entries : List (Nat × Nat))
    (hr : b.accounted + (entries.map Prod.snd).sum < 2 ^ 64)
    (ht : b.tally < 2 ^ 32 + maxRegions) :
    (b.tally + paged entries < 2 ^ 32 + maxRegions ∧ ∃ b', b.addRegions entries = .ok b' ∧
      Run (fun b e b' => Billed b e.1 e.2 b') b entries b') ∨
      (2 ^ 32 + maxRegions ≤ b.tally + paged entries ∧
        b.addRegions entries = .error .overflow) := by
  induction entries generalizing b with
  | nil => exact .inl ⟨ht, b, rfl, .nil b⟩
  | cons e entries ih =>
    rw [List.map_cons, List.sum_cons] at hr
    have hp : paged (e :: entries) =
        (if (wholePages e.1 e.2).isSome then 1 else 0) + paged entries := by
      rw [paged, List.countP_cons, Nat.add_comm]
      rfl
    have hc : b.addRegions (e :: entries) =
        b.addRegion e.1 e.2 >>= fun b => b.addRegions entries := List.foldlM_cons
    rw [hp, hc]
    rcases f.addRegion_billed e.1 (show b.accounted + e.2 < 2 ^ 64 by omega) ht with
      ⟨b₁, hb₁, hb, htally₁⟩ | ⟨he, hs, ho⟩
    · rw [hb₁, ← Nat.add_assoc, ← hb.tally_eq]
      have hroom₁ : b₁.accounted + (entries.map Prod.snd).sum < 2 ^ 64 := by
        rw [hb.accounted_eq]
        omega
      exact (ih (hb.filling f) hroom₁ htally₁).imp_left
        fun ⟨hlt, b', hb', hrun⟩ => ⟨hlt, b', hb', .cons hb hrun⟩
    · rw [if_pos hs, he]
      exact .inr ⟨by omega, rfl⟩

variable {entries : List (Nat × Nat)}

theorem accounted_of_run (hrun : Run (fun b e b' => Billed b e.1 e.2 b') b entries b') :
    b'.accounted = b.accounted + (entries.map Prod.snd).sum := by
  induction hrun with
  | nil => simp
  | cons hb _ ih =>
    rw [ih, hb.accounted_eq, List.map_cons, List.sum_cons, Nat.add_assoc]

theorem filling_of_run (f : Filling b)
    (hrun : Run (fun b e b' => Billed b e.1 e.2 b') b entries b') :
    Filling b' ∧ b'.tally = b.tally + paged entries := by
  induction hrun with
  | nil => exact ⟨f, rfl⟩
  | cons hb _ ih =>
    obtain ⟨f', ht⟩ := ih (hb.filling f)
    refine ⟨f', ?_⟩
    rw [ht, hb.tally_eq, paged, paged, List.countP_cons]
    omega

theorem regions_of_run (hrun : Run (fun b e b' => Billed b e.1 e.2 b') b entries b') :
    ∀ r ∈ b'.regions, r ∈ b.regions ∨ ∃ e ∈ entries, e.1 ≤ r.1 ∧ r.2 ≤ e.1 + e.2 := by
  induction hrun with
  | nil => exact fun r hr => .inl hr
  | @cons b b₁ _ e entries hb _ ih =>
    intro r hr
    rcases ih r hr with hr | ⟨e', he', hin⟩
    · cases hb with
      | malformed | refused => exact .inl hr
      | @accepted addr last hw =>
        have h := wholePages_eq_some hw
        rw [(pushAll_spec _ _).1] at hr
        rcases List.mem_append.mp hr with hr | hr
        · exact .inl hr
        · rw [List.mem_singleton.mp hr]
          exact .inr ⟨e, List.mem_cons_self, h.start_le, h.last_le⟩
    · exact .inr ⟨e', List.mem_cons_of_mem _ he', hin⟩

/-- The blocks of an accepted range: whatever the bound on its turns, the loop pushes
aligned blocks of the range that tile its whole pages. -/
def Tiled (b : Buddy) (start len : Nat) (b' : Buddy) : Prop :=
  ∃ addr last blocks, WholePages start len addr last ∧ Tiling pageSize [(addr, last)] blocks ∧
    b' = (b.accept len addr last).pushAll blocks ∧
    ∀ turns, (last - addr) / pageSize ≤ turns →
      (b.accept len addr last).carve addr last turns = .ok b'

theorem Billed.tiled (h : Billed b start len b') (hr : b.accounted + len < 2 ^ 64) :
    (b'.mem = b.mem ∧ b'.freeLists = b.freeLists ∧ b'.nonempty = b.nonempty ∧
      b'.regions = b.regions) ∨ Tiled b start len b' := by
  cases h with
  | malformed | refused => exact .inl ⟨rfl, rfl, rfl, rfl⟩
  | @accepted addr last hw =>
    have h := wholePages_eq_some hw
    obtain ⟨ht, hsum⟩ := carved_pages h
    refine .inr ⟨addr, last, _, h, ht, rfl, fun turns htu => ?_⟩
    have hl := h.last_le
    rw [carve_turns h.addr_dvd h.last_dvd (Nat.lt_of_le_of_lt hl h.word) ?_ htu, carve_eq]
    · have := h.start_le
      simp only [accept]
      simp only [accounted] at hr
      omega
    · rw [Nat.div_mul_cancel (Nat.dvd_sub h.last_dvd h.addr_dvd)]
      omega

/-- Every sequence of calls on a new allocator whose lengths are together a word, and of
whose ranges at most `2 ^ 32 + 127` have a whole page, returns, with its lengths in
the four totals. Each of its calls adds its own length, and pushes nothing, or
blocks that tile the whole pages of its range. -/
theorem ranges_accounted (mem : Nat → Nat) (entries : List (Nat × Nat))
    (hsum : (entries.map Prod.snd).sum < 2 ^ 64) (hpaged : paged entries ≤ 2 ^ 32 + 127) :
    (∃ b, (Buddy.new mem).addRegions entries = .ok b ∧
      b.accounted = (entries.map Prod.snd).sum) ∧
    ∀ before start len after, entries = before ++ (start, len) :: after →
      ∃ b b', (Buddy.new mem).addRegions before = .ok b ∧ b.addRegion start len = .ok b' ∧
        b'.accounted = b.accounted + len ∧
        ((b'.mem = b.mem ∧ b'.freeLists = b.freeLists ∧ b'.nonempty = b.nonempty ∧
          b'.regions = b.regions) ∨ Tiled b start len b') := by
  have hzero : (Buddy.new mem).accounted = 0 := rfl
  have hnone : (Buddy.new mem).tally = 0 := rfl
  have hmax : maxRegions = 128 := rfl
  constructor
  · rcases (filling_new mem).addRegions_cases entries (by omega) (by omega) with
      ⟨-, b, hb, hrun⟩ | ⟨hover, -⟩
    · refine ⟨b, hb, ?_⟩
      rw [accounted_of_run hrun, hzero, Nat.zero_add]
    · omega
  · rintro before start len after rfl
    rw [List.map_append, List.sum_append, List.map_cons, List.sum_cons] at hsum
    rw [paged, List.countP_append, List.countP_cons] at hpaged
    rcases (filling_new mem).addRegions_cases before (by omega) (by omega) with
      ⟨hlt, b, hb, hrun⟩ | ⟨hover, -⟩
    · obtain ⟨f, htally⟩ := filling_of_run (filling_new mem) hrun
      have hbefore := accounted_of_run hrun
      have hroom : b.accounted + len < 2 ^ 64 := by omega
      rcases f.addRegion_billed start hroom (by omega) with
        ⟨b', hb', hbilled, -⟩ | ⟨-, hsome, hover⟩
      · exact ⟨b, b', hb, hb', hbilled.accounted_eq, hbilled.tiled hroom⟩
      · simp only [hsome, if_true] at hpaged
        simp only [paged] at htally
        omega
    · simp only [paged] at hover
      omega

/-- Pages 1 to 3 and the ends of pages 0 and 4. -/
theorem ranges_accounted_unaligned :
    ∃ b, (Buddy.new fun _ => 0).addRegions [(100, 16300), (0, 4095)] = .ok b ∧
      b.accounted = 20395 := by
  have hsum : ([(100, 16300), (0, 4095)].map Prod.snd).sum = 20395 := by decide
  exact hsum ▸ (ranges_accounted (fun _ => 0) [(100, 16300), (0, 4095)] (by decide)
    (List.countP_le_length.trans (by decide))).1

theorem addRegions_replicate (mem : Nat → Nat) {n : Nat} (hw : n * pageSize < 2 ^ 64)
    (hn : 2 ^ 32 + maxRegions ≤ n) :
    ((List.replicate n ((0 : Nat), pageSize)).map Prod.snd).sum < 2 ^ 64 ∧
      (Buddy.new mem).addRegions (List.replicate n (0, pageSize)) = .error .overflow := by
  have hsum : ((List.replicate n ((0 : Nat), pageSize)).map Prod.snd).sum = n * pageSize := by
    rw [List.map_replicate, List.sum_replicate_nat]
  have hpa : (wholePages 0 pageSize).isSome = true := by decide
  have hp : paged (List.replicate n (0, pageSize)) = n := by
    rw [paged, List.countP_replicate, if_pos hpa]
  have hz : (Buddy.new mem).accounted = 0 := rfl
  have hno : (Buddy.new mem).tally = 0 := rfl
  refine ⟨hsum ▸ hw, ?_⟩
  rcases (filling_new mem).addRegions_cases (List.replicate n (0, pageSize))
      (by rw [hsum]; omega) (by rw [hno]; decide) with ⟨hlt, -⟩ | ⟨-, he⟩
  · omega
  · exact he

/-- The lengths of `2 ^ 32 + 128` ranges of one page are together a word, and the
number of refused regions overflows. -/
theorem refused_count_overflows :
    ((List.replicate (2 ^ 32 + 128) ((0 : Nat), pageSize)).map Prod.snd).sum < 2 ^ 64 ∧
      (Buddy.new fun _ => 0).addRegions (List.replicate (2 ^ 32 + 128) (0, pageSize)) =
        .error .overflow :=
  addRegions_replicate (fun _ => 0) (by decide) (by decide)

end Buddy

end Qunix.Mm
