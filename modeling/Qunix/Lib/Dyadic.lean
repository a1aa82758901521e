/-
Naturally aligned power-of-two blocks and tilings of an address space by them.

A `Block` of order `o` spans `u * 2 ^ o` addresses from its base, where `u` is
the size of an order-zero block. Two aligned blocks are nested or disjoint, so
an aligned address inside a block is either the block's base or lies in a block
of a higher order (`Block.Aligned.base_eq`, `Block.Aligned.covers_cell`). A
`Tiling` cuts a list of regions into pairwise disjoint aligned blocks without
remainder; splitting a block into its two halves and joining two halves are the
moves a binary buddy scheme makes on it. A packing is `Merged` when no two halves
of a cell are left to be joined: then the cells it covers determine its blocks.
-/

import Mathlib.Data.Nat.Bitwise
import Mathlib.Order.Interval.Finset.Nat
import Mathlib.Algebra.Order.BigOperators.Group.List
import Mathlib.Tactic.Ring
import Mathlib.Tactic.Linarith

namespace Qunix.Lib

/-! ### Ranges -/

/-- The ranges of addresses `p.1 ≤ x < p.1 + p.2` and `q.1 ≤ x < q.1 + q.2` have
no address in common. -/
def RangesApart (p q : Nat × Nat) : Prop := min (p.1 + p.2) (q.1 + q.2) ≤ max p.1 q.1

instance (p q : Nat × Nat) : Decidable (RangesApart p q) := inferInstanceAs (Decidable (_ ≤ _))

/-- Disjoint ranges are together no longer than the addresses they lie in. -/
theorem sum_length_le {ranges : List (Nat × Nat)} {limit : Nat}
    (ha : ranges.Pairwise RangesApart) (hli : ∀ p ∈ ranges, p.1 + p.2 ≤ limit) :
    (ranges.map Prod.snd).sum ≤ limit := by
  -- The addresses of the ranges, counted as one finite set.
  let cells : List (Nat × Nat) → Finset Nat :=
    fun l => l.foldr (fun p s => Finset.Ico p.1 (p.1 + p.2) ∪ s) ∅
  have hs : ∀ p l, cells (p :: l) = Finset.Ico p.1 (p.1 + p.2) ∪ cells l := fun _ _ => rfl
  have hmem : ∀ (l : List (Nat × Nat)) (x : Nat),
      x ∈ cells l ↔ ∃ p ∈ l, p.1 ≤ x ∧ x < p.1 + p.2 := by
    intro l x
    induction l with
    | nil => simp [cells]
    | cons p l ih => simp [hs, ih]
  have hc : ∀ l : List (Nat × Nat), l.Pairwise RangesApart →
      (l.map Prod.snd).sum = (cells l).card := by
    intro l hl
    induction l with
    | nil => simp [cells]
    | cons p l ih =>
      obtain ⟨hp, hl⟩ := List.pairwise_cons.mp hl
      have hd : Disjoint (Finset.Ico p.1 (p.1 + p.2)) (cells l) := by
        refine Finset.disjoint_left.mpr fun x hx hx' => ?_
        obtain ⟨q, hq, hqx⟩ := (hmem l x).mp hx'
        have hpx := Finset.mem_Ico.mp hx
        have := hp q hq
        simp only [RangesApart] at this
        omega
      rw [hs, Finset.card_union_of_disjoint hd, ← ih hl]
      simp
  rw [hc ranges ha]
  calc (cells ranges).card ≤ (Finset.range limit).card := by
        refine Finset.card_le_card fun x hx => ?_
        obtain ⟨p, hp, hpx⟩ := (hmem ranges x).mp hx
        exact Finset.mem_range.mpr (lt_of_lt_of_le hpx.2 (hli p hp))
    _ = limit := Finset.card_range limit

/-! ### Blocks -/

/-- A block of `u * 2 ^ order` addresses from `base`. -/
structure Block where
  base : Nat
  order : Nat
deriving DecidableEq, Repr

namespace Block

variable {u : Nat} {b c : Block} {x y o : Nat}

def size (u : Nat) (b : Block) : Nat := u * 2 ^ b.order

def Covers (u : Nat) (b : Block) (x : Nat) : Prop := b.base ≤ x ∧ x < b.base + b.size u

def Aligned (u : Nat) (b : Block) : Prop := b.size u ∣ b.base

def Apart (u : Nat) (b c : Block) : Prop :=
  b.base + b.size u ≤ c.base ∨ c.base + c.size u ≤ b.base

@[simp] theorem size_mk (base o : Nat) : size u ⟨base, o⟩ = u * 2 ^ o := rfl

theorem size_pos (hu : 0 < u) (b : Block) : 0 < b.size u :=
  Nat.mul_pos hu (Nat.two_pow_pos _)

theorem Apart.symm (h : b.Apart u c) : c.Apart u b := Or.symm h

instance : Std.Symm (Apart u) := ⟨fun _ _ h => h.symm⟩

theorem Apart.not_covers (h : b.Apart u c) (hb : b.Covers u x) : ¬ c.Covers u x := by
  rintro ⟨hl, hr⟩
  obtain ⟨hbl, hbr⟩ := hb
  rcases h with h | h <;> omega

theorem covers_base (hu : 0 < u) (b : Block) : b.Covers u b.base :=
  ⟨le_rfl, by have := size_pos hu b; omega⟩

private theorem add_le_of_dvd {m : Nat} (hx : m ∣ x) (hy : m ∣ y) (h : x < y) :
    x + m ≤ y := by
  obtain ⟨i, rfl⟩ := hx
  obtain ⟨j, rfl⟩ := hy
  have hij : i < j := Nat.lt_of_mul_lt_mul_left h
  calc m * i + m = m * (i + 1) := by ring
    _ ≤ m * j := Nat.mul_le_mul_left _ hij

section

variable (hb : b.Aligned u)

include hb

/-- An address aligned at least as coarsely as a block that covers it is that
block's base. -/
theorem Aligned.base_eq (hx : b.Covers u x) (hdvd : u * 2 ^ o ∣ x)
    (ho : b.order ≤ o) : b.base = x := by
  by_contra hne
  have hlt : b.base < x := Nat.lt_of_le_of_ne hx.1 hne
  have hs : b.size u ∣ x :=
    Dvd.dvd.trans (Nat.mul_dvd_mul_left _ (Nat.pow_dvd_pow 2 ho)) hdvd
  have := add_le_of_dvd hb hs hlt
  exact absurd hx.2 (by omega)

/-- A block that covers the base of a finer aligned cell covers the cell. -/
theorem Aligned.covers_cell (hx : b.Covers u x) (hdvd : u * 2 ^ o ∣ x)
    (ho : o ≤ b.order) (hxy : x ≤ y) (hy : y < x + u * 2 ^ o) : b.Covers u y := by
  have hc : u * 2 ^ o ∣ b.size u := Nat.mul_dvd_mul_left _ (Nat.pow_dvd_pow 2 ho)
  have hl : u * 2 ^ o ∣ b.base + b.size u := Nat.dvd_add (hc.trans hb) hc
  have := add_le_of_dvd hdvd hl hx.2
  exact ⟨hx.1.trans hxy, by omega⟩

/-- A block of order above `o` that covers `x` covers the whole aligned cell of
order `o + 1` around `x`, that is, `x`'s cell of order `o` and its buddy. -/
theorem Aligned.covers_parent {z : Nat} (hx : b.Covers u x) (ho : o < b.order)
    (hz : u * 2 ^ (o + 1) ∣ z) (hzx : z ≤ x) (hxz : x < z + u * 2 ^ (o + 1))
    (hzy : z ≤ y) (hyz : y < z + u * 2 ^ (o + 1)) : b.Covers u y := by
  have hc : u * 2 ^ (o + 1) ∣ b.base :=
    Dvd.dvd.trans (Nat.mul_dvd_mul_left _ (Nat.pow_dvd_pow 2 ho)) hb
  have hbz : b.base ≤ z := by
    by_contra hlt
    have := add_le_of_dvd hz hc (by omega)
    have := hx.1
    omega
  exact hb.covers_cell ⟨hbz, by have := hx.2; omega⟩ hz ho hzy hyz

theorem Aligned.dvd_base : u ∣ b.base := (Nat.dvd_mul_right u _).trans hb

theorem Aligned.add_le (hx : u ∣ x) (hcov : b.Covers u x) :
    x + u ≤ b.base + b.size u :=
  add_le_of_dvd hx (Nat.dvd_add hb.dvd_base (Nat.dvd_mul_right u _)) hcov.2

theorem Aligned.apart_cell (hx : u ∣ x) (hnot : ¬ b.Covers u x) :
    Apart u ⟨x, 0⟩ b := by
  by_cases hlt : x < b.base
  · have := add_le_of_dvd hx hb.dvd_base hlt
    exact .inl (by simpa using this)
  · refine .inr (Nat.le_of_not_lt fun hlt' => hnot ⟨Nat.le_of_not_lt hlt, hlt'⟩)

end

theorem apart_cells (hx : u ∣ x) (hy : u ∣ y) (hne : x ≠ y) : Apart u ⟨x, 0⟩ ⟨y, 0⟩ := by
  rcases Nat.lt_or_gt_of_ne hne with hlt | hlt
  · exact .inl (by simpa using add_le_of_dvd hx hy hlt)
  · exact .inr (by simpa using add_le_of_dvd hy hx hlt)

theorem Aligned.covers_floor (hu : 0 < u) (hb : b.Aligned u) (hx : b.Covers u x) :
    b.Covers u (x / u * u) := by
  refine ⟨?_, Nat.lt_of_le_of_lt (Nat.div_mul_le_self x u) hx.2⟩
  obtain ⟨m, hm⟩ := hb.dvd_base
  rw [hm, Nat.mul_comm u m]
  refine Nat.mul_le_mul_right u ((Nat.le_div_iff_mul_le hu).mpr ?_)
  rw [Nat.mul_comm, ← hm]
  exact hx.1

end Block

/-! ### Buddies -/

variable {x k : Nat}

/-- Flipping bit `k` of a multiple of `2 ^ (k + 1)` adds `2 ^ k`. -/
theorem xor_two_pow_of_dvd (h : 2 ^ (k + 1) ∣ x) : x ^^^ 2 ^ k = x + 2 ^ k := by
  obtain ⟨m, rfl⟩ := h
  have hx : 2 ^ (k + 1) * m = (2 * m) <<< k := by rw [Nat.shiftLeft_eq]; ring
  have hodd : (2 * m) ^^^ 1 = 2 * m + 1 := by
    rw [Nat.xor_one_of_even (even_two_mul m)]
  have hone : 2 ^ k = 1 <<< k := by rw [Nat.shiftLeft_eq, Nat.one_mul]
  rw [hx, hone, ← Nat.shiftLeft_xor_distrib, hodd, Nat.shiftLeft_eq, Nat.shiftLeft_eq,
    Nat.shiftLeft_eq]
  ring

/-- Flipping bit `k` of the upper half of a cell gives its lower half. -/
theorem add_two_pow_xor (h : 2 ^ (k + 1) ∣ x) : (x + 2 ^ k) ^^^ 2 ^ k = x := by
  rw [← xor_two_pow_of_dvd h, Nat.xor_assoc, Nat.xor_self, Nat.xor_zero]

/-- A multiple of `2 ^ k` is the lower or the upper half of a cell of twice the
size. -/
theorem half_cases (h : 2 ^ k ∣ x) :
    2 ^ (k + 1) ∣ x ∨ ∃ y, x = y + 2 ^ k ∧ 2 ^ (k + 1) ∣ y := by
  obtain ⟨m, rfl⟩ := h
  rcases Nat.even_or_odd' m with ⟨j, rfl | rfl⟩
  · exact .inl ⟨j, by ring⟩
  · exact .inr ⟨2 ^ (k + 1) * j, by ring, ⟨j, rfl⟩⟩

/-! ### Packings and tilings -/

/-- Pairwise disjoint aligned blocks, each inside one region. -/
structure Packing (u : Nat) (regions : List (Nat × Nat)) (blocks : List Block) : Prop where
  aligned : ∀ b ∈ blocks, b.Aligned u
  inside : ∀ b ∈ blocks, ∃ r ∈ regions, r.1 ≤ b.base ∧ b.base + b.size u ≤ r.2
  apart : blocks.Pairwise (Block.Apart u)

/-- A packing that leaves no address of a region uncovered. -/
structure Tiling (u : Nat) (regions : List (Nat × Nat)) (blocks : List Block) : Prop
    extends Packing u regions blocks where
  covers : ∀ r ∈ regions, ∀ x, r.1 ≤ x → x < r.2 → ∃ b ∈ blocks, b.Covers u x

namespace Packing

variable {u : Nat} {rs : List (Nat × Nat)} {bs cs : List Block} {b c : Block} {x o : Nat}

theorem perm (h : Packing u rs bs) (hp : bs.Perm cs) : Packing u rs cs where
  aligned b hb := h.aligned b (hp.mem_iff.mpr hb)
  inside b hb := h.inside b (hp.mem_iff.mpr hb)
  apart := hp.pairwise h.apart fun hab => hab.symm

theorem mono {rs' : List (Nat × Nat)} (h : Packing u rs bs) (hsub : rs ⊆ rs') :
    Packing u rs' bs where
  aligned := h.aligned
  inside b hb := by
    obtain ⟨r, hr, hin⟩ := h.inside b hb
    exact ⟨r, hsub hr, hin⟩
  apart := h.apart

theorem cons (h : Packing u rs bs) (ha : b.Aligned u)
    (hi : ∃ r ∈ rs, r.1 ≤ b.base ∧ b.base + b.size u ≤ r.2)
    (hap : ∀ c ∈ bs, b.Apart u c) : Packing u rs (b :: bs) where
  aligned c hc := by
    rcases List.mem_cons.mp hc with rfl | hc
    · exact ha
    · exact h.aligned c hc
  inside c hc := by
    rcases List.mem_cons.mp hc with rfl | hc
    · exact hi
    · exact h.inside c hc
  apart := List.pairwise_cons.mpr ⟨hap, h.apart⟩

theorem tail (h : Packing u rs (b :: bs)) : Packing u rs bs where
  aligned c hc := h.aligned c (by simp [hc])
  inside c hc := h.inside c (by simp [hc])
  apart := (List.pairwise_cons.mp h.apart).2

theorem eq_of_covers (h : Packing u rs bs) (hb : b ∈ bs) (hc : c ∈ bs) (hbx : b.Covers u x)
    (hcx : c.Covers u x) : b = c := by
  by_contra hne
  exact (h.apart.forall hb hc hne).not_covers hbx hcx

theorem nodup (hu : 0 < u) (h : Packing u rs bs) : bs.Nodup :=
  h.apart.imp fun {b c} happ heq => by
    subst heq
    exact happ.not_covers (b.covers_base hu) (b.covers_base hu)

theorem split (h : Packing u rs (⟨x, o + 1⟩ :: bs)) :
    Packing u rs (⟨x, o⟩ :: ⟨x + u * 2 ^ o, o⟩ :: bs) := by
  have hdvd : u * 2 ^ (o + 1) ∣ x := h.aligned ⟨x, o + 1⟩ (by simp)
  have hh : u * 2 ^ o ∣ x :=
    Dvd.dvd.trans (Nat.mul_dvd_mul_left _ (Nat.pow_dvd_pow 2 (Nat.le_succ o))) hdvd
  obtain ⟨r, hr, hlo, hhi⟩ := h.inside ⟨x, o + 1⟩ (by simp)
  have hs : u * 2 ^ (o + 1) = u * 2 ^ o + u * 2 ^ o := by ring
  simp only [Block.size_mk, hs] at hlo hhi
  have hre := (List.pairwise_cons.mp h.apart).1
  have hu : Packing u rs (⟨x + u * 2 ^ o, o⟩ :: bs) := by
    refine h.tail.cons ?_ ⟨r, hr, ?_, ?_⟩ fun c hc => ?_
    · exact Nat.dvd_add hh (dvd_refl _)
    · simp only; omega
    · simp only [Block.size_mk]; omega
    · have := hre c hc
      simp only [Block.Apart, Block.size_mk, hs] at this ⊢
      omega
  refine hu.cons hh ⟨r, hr, hlo, ?_⟩ fun c hc => ?_
  · simp only [Block.size_mk]; omega
  · rcases List.mem_cons.mp hc with rfl | hc
    · exact .inl (le_rfl)
    · have := hre c hc
      simp only [Block.Apart, Block.size_mk, hs] at this ⊢
      omega

theorem merge (h : Packing u rs (⟨x, o⟩ :: ⟨x + u * 2 ^ o, o⟩ :: bs))
    (hdvd : u * 2 ^ (o + 1) ∣ x)
    (hi : ∃ r ∈ rs, r.1 ≤ x ∧ x + u * 2 ^ (o + 1) ≤ r.2) :
    Packing u rs (⟨x, o + 1⟩ :: bs) := by
  have hs : u * 2 ^ (o + 1) = u * 2 ^ o + u * 2 ^ o := by ring
  have hl := (List.pairwise_cons.mp h.apart).1
  have hup := (List.pairwise_cons.mp h.tail.apart).1
  have hbs : Packing u rs bs := h.tail.tail
  refine hbs.cons hdvd hi fun c hc => ?_
  have h1 := hl c (by simp [hc])
  have h2 := hup c hc
  have hcp : c.size u = 0 ∨ 0 < c.size u := Nat.eq_zero_or_pos _
  simp only [Block.Apart, Block.size_mk, hs] at h1 h2 ⊢
  rcases hcp with hc0 | hc0
  · have hu : u = 0 := by
      rcases Nat.mul_eq_zero.mp hc0 with hu | hp
      · exact hu
      · exact absurd hp (Nat.two_pow_pos _).ne'
    simp only [hu] at h1 h2 ⊢
    omega
  · omega

/-- The blocks' sizes add up to no more than the addresses they lie in. -/
theorem sum_size_le {limit : Nat} (h : Packing u rs bs)
    (hl : ∀ b ∈ bs, b.base + b.size u ≤ limit) : (bs.map (Block.size u)).sum ≤ limit := by
  have ha : (bs.map fun b => (b.base, b.size u)).Pairwise RangesApart :=
    List.pairwise_map.mpr (h.apart.imp fun {b c} hbc => by
      simp only [RangesApart, Block.Apart] at hbc ⊢
      omega)
  have he : ∀ p ∈ bs.map fun b => (b.base, b.size u), p.1 + p.2 ≤ limit := by
    simpa using hl
  have hsum := sum_length_le ha he
  rwa [List.map_map] at hsum

end Packing

namespace Tiling

variable {u : Nat} {rs : List (Nat × Nat)} {bs cs : List Block} {b : Block} {x y z o : Nat}
  {r : Nat × Nat}

theorem perm (h : Tiling u rs bs) (hp : bs.Perm cs) : Tiling u rs cs where
  toPacking := h.toPacking.perm hp
  covers r hr x hlo hhi := by
    obtain ⟨b, hb, hbx⟩ := h.covers r hr x hlo hhi
    exact ⟨b, hp.mem_iff.mp hb, hbx⟩

variable {limit : Nat}

theorem nil_of_le (h : limit ≤ x) : Tiling u [(x, limit)] [] := by
  refine ⟨⟨by simp, by simp, List.Pairwise.nil⟩, fun r hr y hlo hhi => ?_⟩
  rw [List.mem_singleton.mp hr] at hlo hhi
  omega

theorem cons_below (h : Tiling u [(x + u * 2 ^ o, limit)] bs) (hdvd : u * 2 ^ o ∣ x)
    (hle : x + u * 2 ^ o ≤ limit) : Tiling u [(x, limit)] (⟨x, o⟩ :: bs) := by
  have hi : ∀ c ∈ bs, x + u * 2 ^ o ≤ c.base ∧ c.base + c.size u ≤ limit := by
    intro c hc
    obtain ⟨r, hr, hin⟩ := h.inside c hc
    rw [List.mem_singleton.mp hr] at hin
    exact hin
  have hw : Packing u [(x, limit)] bs := by
    refine ⟨h.aligned, fun c hc => ⟨_, List.mem_singleton.mpr rfl, ?_⟩, h.apart⟩
    have := hi c hc
    omega
  refine ⟨hw.cons hdvd ⟨_, List.mem_singleton.mpr rfl, le_rfl, hle⟩ fun c hc => ?_,
    fun r hr y hlo hhi => ?_⟩
  · exact .inl (hi c hc).1
  · rw [List.mem_singleton.mp hr] at hlo hhi
    by_cases hy : y < x + u * 2 ^ o
    · exact ⟨⟨x, o⟩, List.mem_cons_self, hlo, hy⟩
    · obtain ⟨c, hc, hcy⟩ := h.covers _ (List.mem_singleton.mpr rfl) y (Nat.le_of_not_lt hy) hhi
      exact ⟨c, List.mem_cons_of_mem _ hc, hcy⟩

theorem split (h : Tiling u rs (⟨x, o + 1⟩ :: bs)) :
    Tiling u rs (⟨x, o⟩ :: ⟨x + u * 2 ^ o, o⟩ :: bs) where
  toPacking := h.toPacking.split
  covers r hr y hlo hhi := by
    obtain ⟨b, hb, hby⟩ := h.covers r hr y hlo hhi
    have hs : u * 2 ^ (o + 1) = u * 2 ^ o + u * 2 ^ o := by ring
    rcases List.mem_cons.mp hb with rfl | hb
    · simp only [Block.Covers, Block.size_mk, hs] at hby
      by_cases hy : y < x + u * 2 ^ o
      · exact ⟨⟨x, o⟩, by simp, hby.1, hy⟩
      · exact ⟨⟨x + u * 2 ^ o, o⟩, by simp, Nat.le_of_not_lt hy, by
          simp only [Block.size_mk]; omega⟩
    · exact ⟨b, by simp [hb], hby⟩

theorem merge (h : Tiling u rs (⟨x, o⟩ :: ⟨x + u * 2 ^ o, o⟩ :: bs))
    (hdvd : u * 2 ^ (o + 1) ∣ x)
    (hi : ∃ r ∈ rs, r.1 ≤ x ∧ x + u * 2 ^ (o + 1) ≤ r.2) :
    Tiling u rs (⟨x, o + 1⟩ :: bs) where
  toPacking := h.toPacking.merge hdvd hi
  covers r hr y hlo hhi := by
    obtain ⟨b, hb, hby⟩ := h.covers r hr y hlo hhi
    have hs : u * 2 ^ (o + 1) = u * 2 ^ o + u * 2 ^ o := by ring
    simp only [List.mem_cons] at hb
    rcases hb with rfl | rfl | hb
    · refine ⟨⟨x, o + 1⟩, by simp, ?_⟩
      simp only [Block.Covers, Block.size_mk, hs] at hby ⊢
      omega
    · refine ⟨⟨x, o + 1⟩, by simp, ?_⟩
      simp only [Block.Covers, Block.size_mk, hs] at hby ⊢
      omega
    · exact ⟨b, by simp [hb], hby⟩

/-- The block over an aligned address starts there or is of a higher order. -/
theorem block_at (h : Tiling u rs bs) (hr : r ∈ rs) (hlo : r.1 ≤ x) (hhi : x < r.2)
    (hdvd : u * 2 ^ o ∣ x) : ∃ b ∈ bs, b.Covers u x ∧ (b.base = x ∨ o < b.order) := by
  obtain ⟨b, hb, hbx⟩ := h.covers r hr x hlo hhi
  refine ⟨b, hb, hbx, ?_⟩
  by_cases ho : b.order ≤ o
  · exact .inl ((h.aligned b hb).base_eq hbx hdvd ho)
  · exact .inr (Nat.lt_of_not_le ho)

/-- The aligned cell of order `o` around a block starts at the base of a block
of the tiling, and that block is of order `o` only if it is the given one. -/
theorem ancestor_base (hu : 0 < u) (h : Tiling u rs bs) (hb : b ∈ bs) (hr : r ∈ rs)
    (hlo : r.1 ≤ z) (hhi : z < r.2) (hdvd : u * 2 ^ o ∣ z) (hzb : z ≤ b.base)
    (hbz : b.base < z + u * 2 ^ o) : ∃ c ∈ bs, c.base = z ∧ (c.order = o → c = b) := by
  obtain ⟨c, hc, hcz, hca⟩ := h.block_at hr hlo hhi hdvd
  have hs : c.Covers u b.base → c = b := fun hcb =>
    h.eq_of_covers hc hb hcb (b.covers_base hu)
  rcases hca with hba | hord
  · refine ⟨c, hc, hba, fun heq => hs ⟨by omega, ?_⟩⟩
    rw [hba, Block.size, heq]
    exact hbz
  · have heq := hs ((h.aligned c hc).covers_cell hcz hdvd (Nat.le_of_lt hord) hzb hbz)
    subst heq
    exact ⟨c, hc, Nat.le_antisymm hcz.1 hzb, fun _ => rfl⟩

/-- The other half of a block's parent cell starts at the base of another block
of the tiling. -/
theorem buddy_base (hu : 0 < u) (h : Tiling u rs bs) (hb : b ∈ bs) (hr : r ∈ rs)
    (hlo : r.1 ≤ y) (hhi : y < r.2) (hz : u * 2 ^ (b.order + 1) ∣ z)
    (hha : (b.base = z ∧ y = z + u * 2 ^ b.order) ∨ (b.base = z + u * 2 ^ b.order ∧ y = z)) :
    ∃ c ∈ bs, c.base = y ∧ c ≠ b := by
  have hs : u * 2 ^ (b.order + 1) = u * 2 ^ b.order + u * 2 ^ b.order := by ring
  have hpos : 0 < u * 2 ^ b.order := b.size_pos hu
  have hh : u * 2 ^ b.order ∣ z :=
    Dvd.dvd.trans (Nat.mul_dvd_mul_left _ (Nat.pow_dvd_pow 2 (Nat.le_succ _))) hz
  have hy : u * 2 ^ b.order ∣ y := by
    rcases hha with ⟨-, rfl⟩ | ⟨-, rfl⟩
    · exact Nat.dvd_add hh (dvd_refl _)
    · exact hh
  obtain ⟨c, hc, hcy, hca⟩ := h.block_at hr hlo hhi hy
  rcases hca with hba | hord
  · refine ⟨c, hc, hba, ?_⟩
    rintro rfl
    omega
  · have hcb : c.Covers u b.base :=
      (h.aligned c hc).covers_parent hcy hord hz (by omega) (by omega) (by omega) (by omega)
    have heq := h.eq_of_covers hc hb hcb (b.covers_base hu)
    subst heq
    exact absurd hord (Nat.lt_irrefl _)

/-- The part of a tiling that is not `bs` may be cut anew around any aligned block that is
apart from `bs`: the rest of it becomes unit cells. -/
theorem retile {held : List Block} {c : Block} (hu : 0 < u) (h : Tiling u rs (held ++ bs))
    (hc : c.Aligned u) (hin : ∃ r ∈ rs, r.1 ≤ c.base ∧ c.base + c.size u ≤ r.2)
    (ha : ∀ b ∈ bs, c.Apart u b) :
    ∃ cells : List Block, (∀ d ∈ cells, d.order = 0) ∧ Tiling u rs ((c :: cells) ++ bs) := by
  classical
  obtain ⟨-, hbs, hcr⟩ := List.pairwise_append.mp h.apart
  let limit := (held.map fun d => d.base + d.size u).sum
  let loose := (Finset.range limit).filter fun z =>
    u ∣ z ∧ (∃ d ∈ held, d.Covers u z) ∧ ¬ c.Covers u z
  have hmem : ∀ z, z ∈ loose.toList ↔ u ∣ z ∧ (∃ d ∈ held, d.Covers u z) ∧ ¬ c.Covers u z := by
    intro z
    rw [Finset.mem_toList, Finset.mem_filter, and_iff_right_iff_imp, Finset.mem_range]
    rintro ⟨-, ⟨d, hd, hdz⟩, -⟩
    exact Nat.lt_of_lt_of_le hdz.2 (List.single_le_sum (by simp) _ (List.mem_map.mpr ⟨d, hd, rfl⟩))
  refine ⟨loose.toList.map (⟨·, 0⟩), by simp, ⟨⟨?_, ?_, ?_⟩, ?_⟩⟩
  · intro d hd
    rcases List.mem_append.mp hd with hd | hd
    · rcases List.mem_cons.mp hd with rfl | hd
      · exact hc
      · obtain ⟨z, hz, rfl⟩ := List.mem_map.mp hd
        simpa [Block.Aligned] using ((hmem z).mp hz).1
    · exact h.aligned d (List.mem_append_right _ hd)
  · intro d hd
    rcases List.mem_append.mp hd with hd | hd
    · rcases List.mem_cons.mp hd with rfl | hd
      · exact hin
      · obtain ⟨z, hz, rfl⟩ := List.mem_map.mp hd
        obtain ⟨hdvd, ⟨e, he, hez⟩, -⟩ := (hmem z).mp hz
        have hem := List.mem_append_left bs he
        obtain ⟨r, hr, hlo, hhi⟩ := h.inside e hem
        have hend := (h.aligned e hem).add_le hdvd hez
        refine ⟨r, hr, hlo.trans hez.1, ?_⟩
        simp only [Block.size_mk]
        omega
    · exact h.inside d (List.mem_append_right _ hd)
  · refine List.pairwise_append.mpr ⟨List.pairwise_cons.mpr ⟨fun d hd => ?_, ?_⟩, hbs,
      fun d hd b hb => ?_⟩
    · obtain ⟨z, hz, rfl⟩ := List.mem_map.mp hd
      obtain ⟨hdvd, -, hnot⟩ := (hmem z).mp hz
      exact (hc.apart_cell hdvd hnot).symm
    · refine List.pairwise_map.mpr (loose.nodup_toList.imp_of_mem fun {x y} hx hy hne => ?_)
      exact Block.apart_cells ((hmem x).mp hx).1 ((hmem y).mp hy).1 hne
    · rcases List.mem_cons.mp hd with rfl | hd
      · exact ha b hb
      · obtain ⟨z, hz, rfl⟩ := List.mem_map.mp hd
        obtain ⟨hdvd, ⟨e, he, hez⟩, -⟩ := (hmem z).mp hz
        exact (h.aligned b (List.mem_append_right _ hb)).apart_cell hdvd
          ((hcr e he b hb).not_covers hez)
  · intro r hr x hlo hhi
    obtain ⟨d, hd, hdx⟩ := h.covers r hr x hlo hhi
    rcases List.mem_append.mp hd with hh | hbs
    · -- The unit cell of `x` is a part of `c`, or one of the loose ones.
      have hdvd : u ∣ x / u * u := Nat.dvd_mul_left u _
      have hf := (h.aligned d hd).covers_floor hu hdx
      have hx := Nat.lt_div_mul_add (a := x) hu
      by_cases hcov : c.Covers u (x / u * u)
      · have hend := hc.add_le hdvd hcov
        exact ⟨c, by simp, hcov.1.trans (Nat.div_mul_le_self x u), by omega⟩
      · refine ⟨⟨x / u * u, 0⟩, ?_, Nat.div_mul_le_self x u, ?_⟩
        · refine List.mem_append_left _ (List.mem_cons_of_mem _ (List.mem_map.mpr ⟨_, ?_, rfl⟩))
          exact (hmem _).mpr ⟨hdvd, ⟨d, hh, hf⟩, hcov⟩
        · rw [Block.size_mk, Nat.pow_zero, Nat.mul_one]
          exact hx
    · exact ⟨d, List.mem_append_right _ hbs, hdx⟩

end Tiling

/-! ### Merged packings -/

/-- No two halves of one cell of order up to `top`, inside one region, are both
blocks. -/
def Merged (u top : Nat) (regions : List (Nat × Nat)) (blocks : List Block) : Prop :=
  ∀ o z, o < top → u * 2 ^ (o + 1) ∣ z →
    (∃ r ∈ regions, r.1 ≤ z ∧ z + u * 2 ^ (o + 1) ≤ r.2) → (⟨z, o⟩ : Block) ∈ blocks →
    (⟨z + u * 2 ^ o, o⟩ : Block) ∉ blocks

namespace Merged

variable {u top : Nat} {rs rs' : List (Nat × Nat)} {bs cs : List Block} {b c : Block} {x y o : Nat}

theorem subset (h : Merged u top rs bs) (hsub : cs ⊆ bs) : Merged u top rs cs :=
  fun o z ho hz hin hlo hhi => h o z ho hz hin (hsub hlo) (hsub hhi)

/-- A block may be added unless its other half is there. -/
theorem cons (hu : 0 < u) (h : Merged u top rs bs)
    (hbu : b.order < top → ∀ z, u * 2 ^ (b.order + 1) ∣ z →
      (∃ r ∈ rs, r.1 ≤ z ∧ z + u * 2 ^ (b.order + 1) ≤ r.2) →
      (b.base = z → (⟨z + u * 2 ^ b.order, b.order⟩ : Block) ∉ bs) ∧
      (b.base = z + u * 2 ^ b.order → (⟨z, b.order⟩ : Block) ∉ bs)) :
    Merged u top rs (b :: bs) := by
  intro o z ho hz hin hlo hhi
  have hpos : 0 < u * 2 ^ o := Nat.mul_pos hu (Nat.two_pow_pos o)
  rcases List.mem_cons.mp hlo with rfl | hl
  · rcases List.mem_cons.mp hhi with heq | hup
    · have := congrArg Block.base heq
      simp only at this
      omega
    · exact (hbu ho z hz hin).1 rfl hup
  · rcases List.mem_cons.mp hhi with rfl | hup
    · exact (hbu ho z hz hin).2 rfl hl
    · exact h o z ho hz hin hl hup

theorem exists_block (hu : 0 < u) (h : Merged u top rs bs) (hp : Packing u rs bs) (ho : o ≤ top)
    (hdvd : u * 2 ^ o ∣ x) (hin : ∃ r ∈ rs, r.1 ≤ x ∧ x + u * 2 ^ o ≤ r.2)
    (hcov : ∀ y, u ∣ y → x ≤ y → y < x + u * 2 ^ o → ∃ c ∈ bs, c.Covers u y) :
    ∃ c ∈ bs, o ≤ c.order ∧ c.base ≤ x ∧ x + u * 2 ^ o ≤ c.base + c.size u := by
  induction o generalizing x with
  | zero =>
    rw [Nat.pow_zero, Nat.mul_one] at *
    obtain ⟨c, hc, hcx⟩ := hcov x hdvd (le_rfl) (by omega)
    exact ⟨c, hc, Nat.zero_le _, hcx.1, (hp.aligned c hc).add_le hdvd hcx⟩
  | succ o ih =>
    have hpos : 0 < u * 2 ^ o := Nat.mul_pos hu (Nat.two_pow_pos o)
    have hs : u * 2 ^ (o + 1) = u * 2 ^ o + u * 2 ^ o := by ring
    have hh : u * 2 ^ o ∣ x := Dvd.dvd.trans ⟨2, by ring⟩ hdvd
    obtain ⟨r, hr, hrlo, hrhi⟩ := hin
    -- Each half lies in one block, which is the half itself or larger.
    have hla : ∀ {y c}, x ≤ y → y < x + u * 2 ^ (o + 1) → c ∈ bs → c.Covers u y → o < c.order →
        c.base ≤ x ∧ x + u * 2 ^ (o + 1) ≤ c.base + c.size u := by
      intro y c hxy hyx hc hcy hoc
      have hcov : ∀ w, x ≤ w → w < x + u * 2 ^ (o + 1) → c.Covers u w := fun w hw hw' =>
        (hp.aligned c hc).covers_parent hcy hoc hdvd hxy hyx hw hw'
      have hlo := hcov x (le_rfl) (by omega)
      have hhi := hcov (x + u * 2 ^ (o + 1) - 1) (by omega) (by omega)
      exact ⟨hlo.1, by have := hhi.2; omega⟩
    have he : ∀ {y}, u * 2 ^ o ∣ y → x ≤ y → y + u * 2 ^ o ≤ x + u * 2 ^ (o + 1) →
        (∃ c ∈ bs, o + 1 ≤ c.order ∧ c.base ≤ x ∧ x + u * 2 ^ (o + 1) ≤ c.base + c.size u) ∨
          (⟨y, o⟩ : Block) ∈ bs := by
      intro y hy hxy hyx
      obtain ⟨c, hc, hoc, hlo, hhi⟩ := ih (by omega) hy ⟨r, hr, by omega, by omega⟩
        fun w hw hyw hwy => hcov w hw (by omega) (by omega)
      have hcy : c.Covers u y := ⟨hlo, by omega⟩
      rcases Nat.lt_or_ge o c.order with hlt | hge
      · exact .inl ⟨c, hc, hlt, hla hxy (by omega) hc hcy hlt⟩
      · have hba := (hp.aligned c hc).base_eq hcy hy hge
        have hor : c.order = o := Nat.le_antisymm hge hoc
        right
        rw [← hba, ← hor]
        exact hc
    rcases he hh (le_rfl) (by omega) with hd | hl
    · exact hd
    · rcases he (Nat.dvd_add hh (dvd_refl _)) (Nat.le_add_right _ _) (by omega) with
        hd | hup
      · exact hd
      · exact absurd hup (h o x (by omega) hdvd ⟨r, hr, hrlo, hrhi⟩ hl)

theorem eq_of_covers (hu : 0 < u) (h : Merged u top rs bs) (hp : Packing u rs bs)
    (h' : Merged u top rs' cs) (hp' : Packing u rs' cs) (hrs : ∀ r, r ∈ rs ↔ r ∈ rs')
    (hbs : ∀ b ∈ bs, b.order ≤ top) (hcs : ∀ c ∈ cs, c.order ≤ top)
    (hcov : ∀ x, u ∣ x → ((∃ b ∈ bs, b.Covers u x) ↔ ∃ c ∈ cs, c.Covers u x)) (hb : b ∈ bs) :
    b ∈ cs := by
  obtain ⟨r, hr, hlo, hhi⟩ := hp.inside b hb
  obtain ⟨c, hc, hoc, hclo, hchi⟩ := h'.exists_block hu hp' (hbs b hb) (hp.aligned b hb)
    ⟨r, (hrs r).mp hr, hlo, hhi⟩ fun y hy hby hyb => (hcov y hy).mp ⟨b, hb, hby, hyb⟩
  obtain ⟨s, hs, hslo, hshi⟩ := hp'.inside c hc
  obtain ⟨d, hd, hod, hdlo, hdhi⟩ := h.exists_block hu hp (hcs c hc) (hp'.aligned c hc)
    ⟨s, (hrs s).mpr hs, hslo, hshi⟩ fun y hy hcy hyc => (hcov y hy).mpr ⟨c, hc, hcy, hyc⟩
  have hbp := b.size_pos hu
  simp only [Block.size] at hbp hdhi hchi
  -- The block around the block around `b` is `b` itself.
  have hdb : d = b := hp.eq_of_covers hd hb ⟨by omega, by simp only [Block.size]; omega⟩
    (b.covers_base hu)
  subst hdb
  have ho : c.order = d.order := Nat.le_antisymm hod hoc
  have hba : c.base = d.base := Nat.le_antisymm hclo hdlo
  obtain ⟨cbase, corder⟩ := c
  simp only at ho hba
  rw [ho, hba] at hc
  exact hc

end Merged

end Qunix.Lib
