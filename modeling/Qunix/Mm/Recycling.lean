/-
How often the kernel heap cuts blocks off its region.

A `Census` counts, for every bin, the blocks that were ever cut off the region and
the most blocks that were in use at one time. Blocks of a bin that keeps what is
freed are in use or on the bin's list, and the region is asked only when the list
is empty, so the two numbers agree: `carved_eq_peak`.
-/

import Qunix.Mm.SlabRuns

namespace Qunix.Mm.Slab

open Qunix.Lib Function

/-- The blocks of a bin that are in use. -/
def World.inUse (w : World) (bin : Bin) : Nat :=
  w.live.countP fun o => decide (o.layout.bin = bin)

structure Census where
  world : World
  carved : Bin → Nat
  peak : Bin → Nat

namespace Census

def start (h : SlabHeap) : Census := ⟨⟨h, []⟩, fun _ => 0, fun _ => 0⟩

/-- A block was cut off the region if the end of what is handed out moved. -/
def countCarved (s : Census) (call : Call) (w : World) : Bin → Nat :=
  match call with
  | .alloc layout =>
    if w.heap.bumpNext = s.world.heap.bumpNext then s.carved
    else update s.carved layout.bin (s.carved layout.bin + 1)
  | _ => s.carved

def step (s : Census) (call : Call) : Option Census :=
  (s.world.step call).map fun w =>
    ⟨w, s.countCarved call w, fun bin => max (s.peak bin) (w.inUse bin)⟩

def Step (s : Census) (call : Call) (t : Census) : Prop := s.step call = some t

end Census

/-! ### Counting blocks -/

section Counting

variable {w w' : World} {free free' : List Chunk} {bin : Bin} {ptr : Nat} {layout : Layout}

theorem length_listOf (free : List Chunk) (bin : Bin) :
    (listOf free bin).length = free.countP fun c => decide (c.bin = bin) := by
  rw [listOf, List.length_map, List.countP_eq_length_filter]

theorem inUse_cons (hl : w'.live = ⟨ptr, layout⟩ :: w.live) :
    w'.inUse bin = w.inUse bin + if layout.bin = bin then 1 else 0 := by
  simp [World.inUse, hl, List.countP_cons]

theorem inUse_erase (bin : Bin) (hmem : ⟨ptr, layout⟩ ∈ w.live)
    (hl : w'.live = w.live.erase ⟨ptr, layout⟩) :
    w.inUse bin = w'.inUse bin + if layout.bin = bin then 1 else 0 := by
  rw [World.inUse, (List.perm_cons_erase hmem).countP_eq]
  simp [World.inUse, hl, List.countP_cons]

theorem length_listOf_perm (hp : free.Perm (⟨ptr, layout.bin⟩ :: free')) :
    (listOf free bin).length = (listOf free' bin).length + if layout.bin = bin then 1 else 0 := by
  rw [length_listOf, length_listOf, hp.countP_eq]
  simp [List.countP_cons]

end Counting

/-! ### The invariant -/

/-- Every block of a recycled bin that was cut off is in use or on the list, and the
peak was as high as that. -/
structure Counted (s : Census) (free : List Chunk) : Prop where
  total : ∀ bin, bin.Valid → bin.Recycled →
    s.carved bin = s.world.inUse bin + (listOf free bin).length
  peak : ∀ bin, bin.Valid → bin.Recycled → s.carved bin = s.peak bin
  invalid : ∀ bin, ¬ bin.Valid → s.carved bin = 0 ∧ s.peak bin = 0

namespace Counted

variable {s : Census} {w : World} {free free' : List Chunk} {call : Call}

theorem start (h : SlabHeap) : Counted (Census.start h) [] := by
  constructor
  · intro bin _ _
    rfl
  · intro bin _ _
    rfl
  · intro bin _
    exact ⟨rfl, rfl⟩

theorem inUse_of_invalid (w : World) {bin : Bin} (hbin : ¬ bin.Valid) : w.inUse bin = 0 := by
  refine List.countP_eq_zero.mpr fun o _ => ?_
  rw [decide_eq_true_eq]
  rintro rfl
  exact hbin o.layout.bin_valid

/-- A call that cuts nothing off moves blocks between their owners and the lists. -/
theorem exchange (hc : Counted s free) (hca : s.countCarved call w = s.carved)
    (hsum : ∀ bin, bin.Recycled →
      w.inUse bin + (listOf free' bin).length = s.world.inUse bin + (listOf free bin).length) :
    Counted ⟨w, s.countCarved call w, fun bin => max (s.peak bin) (w.inUse bin)⟩ free' := by
  constructor
  · intro bin hv hr
    simp only [hca]
    rw [hc.total bin hv hr, hsum bin hr]
  · intro bin hv hr
    have ht := hc.total bin hv hr
    have hp := hc.peak bin hv hr
    have hsum := hsum bin hr
    simp only [hca]
    omega
  · intro bin hv
    have hz := hc.invalid bin hv
    simp only [hca, inUse_of_invalid w hv]
    omega

theorem moved (hc : Counted s free) (hm : Moved s.world w free free' call) :
    Counted ⟨w, s.countCarved call w, fun bin => max (s.peak bin) (w.inUse bin)⟩ free' := by
  cases hm with
  | refused heq =>
    subst heq
    exact hc.exchange (if_pos rfl) fun _ _ => rfl
  | @carved layout ptr hnil hlt hl =>
    have hca : s.countCarved (.alloc layout) w =
        update s.carved layout.bin (s.carved layout.bin + 1) := if_neg (Nat.ne_of_gt hlt)
    constructor
    · intro bin hv hr
      have ht := hc.total bin hv hr
      simp only [hca, inUse_cons hl]
      rcases eq_or_ne layout.bin bin with rfl | hbin
      · rw [update_self, if_pos rfl]
        omega
      · rw [update_of_ne (Ne.symm hbin), if_neg hbin]
        omega
    · intro bin hv hr
      have ht := hc.total bin hv hr
      have hpe := hc.peak bin hv hr
      simp only [hca, inUse_cons hl]
      by_cases hbin : layout.bin = bin
      · -- The list is empty: all that was cut off before is in use.
        subst hbin
        rw [hnil] at ht
        rw [update_self, if_pos rfl]
        simp only [List.length_nil] at ht
        omega
      · rw [update_of_ne (Ne.symm hbin), if_neg hbin]
        omega
    · intro bin hv
      have hz := hc.invalid bin hv
      have hne : bin ≠ layout.bin := by
        rintro rfl
        exact hv layout.bin_valid
      simp only [hca, update_of_ne hne, inUse_of_invalid w hv]
      omega
  | @reused layout ptr _ hp hn hl =>
    refine hc.exchange (if_pos hn) fun bin _ => ?_
    rw [inUse_cons hl, length_listOf_perm hp]
    omega
  | @freed ptr layout hmem hn hl =>
    refine hc.exchange rfl fun bin hr => ?_
    have hco := inUse_erase bin hmem hl
    rcases eq_or_ne layout.bin bin with rfl | hbin
    · rw [if_pos hr, listOf_cons, if_pos rfl, List.length_cons]
      rw [if_pos rfl] at hco
      omega
    · rw [if_neg hbin] at hco
      split
      · rw [listOf_cons, if_neg hbin]
        omega
      · omega
  | wrote hn hl =>
    refine hc.exchange rfl fun bin _ => ?_
    rw [World.inUse, hl, World.inUse]

theorem step {t : Census} {va last : Nat} (hva : 0 < va) (hla : last < 2 ^ 64)
    (hl : Laid va last s.world.heap s.world.live free) (hc : Counted s free)
    (hst : Census.Step s call t) :
    ∃ free', Laid va last t.world.heap t.world.live free' ∧ Counted t free' := by
  obtain ⟨w', hw, rfl⟩ := Option.map_eq_some_iff.mp hst
  obtain ⟨ha, hp⟩ := World.step_eq_some.mp hw
  obtain ⟨w'', free', hp', hl', hm⟩ := hl.perform hva hla ha
  obtain rfl := Except.ok.inj (hp'.symm.trans hp)
  exact ⟨free', hl', hc.moved hm⟩

end Counted

theorem recycled_large_iff {k : Nat} (hlo : 5 ≤ k) (hhi : k < 64) :
    (Bin.large (2 ^ k)).Recycled ↔ k ≤ 22 := by
  have hlen : largeListsLen = 18 := rfl
  simp only [Bin.Recycled, largeIndex_two_pow hhi, Option.isSome_ite]
  omega

/-- Of every size class and every power-of-two extent up to 4 MiB as many blocks were
cut off the region as were in use at the worst time; while fewer are in use, a
request for one takes nothing from the region. -/
theorem carved_eq_peak {mem : Nat → UInt8} {va len : Nat} {h : SlabHeap} {calls : List Call}
    {s : Census} (hva : 0 < va) (hback : (SlabHeap.new mem).setBacking va len = .ok h)
    (hrun : Run Census.Step (Census.start h) calls s) :
    (∀ cls < classes.length, s.carved (.sized cls) = s.peak (.sized cls)) ∧
    (∀ k ≤ 22, s.carved (.large (2 ^ k)) = s.peak (.large (2 ^ k))) ∧
    ∀ layout t, ((∃ cls, layout.bin = .sized cls) ∨ ∃ k ≤ 22, layout.bin = .large (2 ^ k)) →
      s.world.inUse layout.bin < s.peak layout.bin → Census.Step s (.alloc layout) t →
      t.world.heap.bumpNext = s.world.heap.bumpNext := by
  obtain ⟨hlast, rfl⟩ := setBacking_new hback
  obtain ⟨free, hl, hc⟩ : ∃ free,
      Laid va (va + len) s.world.heap s.world.live free ∧ Counted s free := by
    refine hrun.invariant
      (p := fun s => ∃ free, Laid va (va + len) s.world.heap s.world.live free ∧ Counted s free) ?_
      ⟨[], Laid.start mem va len, Counted.start _⟩
    rintro s call t ⟨free, hl, hc⟩ hst
    exact hc.step hva hlast hl hst
  have hlarge : ∀ k ≤ 22, 5 ≤ k → (Bin.large (2 ^ k)).Valid ∧ (Bin.large (2 ^ k)).Recycled :=
    fun k hk h5 => ⟨⟨k, h5, by omega, rfl⟩, (recycled_large_iff h5 (by omega)).mpr hk⟩
  have hsmall : ∀ k, k < 5 → ¬ (Bin.large (2 ^ k)).Valid := by
    rintro k hk ⟨j, hj, -, heq⟩
    have := Nat.pow_right_injective (Nat.le_refl 2) heq
    omega
  refine ⟨fun cls hcls => hc.peak _ hcls trivial, fun k hk => ?_, fun layout t hbin hlt hst => ?_⟩
  · by_cases h5 : 5 ≤ k
    · obtain ⟨hv, hr⟩ := hlarge k hk h5
      exact hc.peak _ hv hr
    · obtain ⟨hcarved, hpeak⟩ := hc.invalid _ (hsmall k (by omega))
      rw [hcarved, hpeak]
  · have hv := layout.bin_valid
    have hr : layout.bin.Recycled := by
      rcases hbin with ⟨cls, hcls⟩ | ⟨k, hk, hlayout⟩
      · rw [hcls]
        trivial
      · rw [hlayout] at hv ⊢
        exact (hlarge k hk (Nat.le_of_not_lt fun hlow => hsmall k hlow hv)).2
    obtain ⟨w', hw, rfl⟩ := Option.map_eq_some_iff.mp hst
    obtain ⟨hallowed, hperform⟩ := World.step_eq_some.mp hw
    obtain ⟨w'', free', hperform', -, hmoved⟩ := hl.perform hva hlast hallowed
    obtain rfl := Except.ok.inj (hperform'.symm.trans hperform)
    cases hmoved with
    | refused heq => rw [heq]
    | carved hnil =>
      have htotal := hc.total _ hv hr
      have hpeak := hc.peak _ hv hr
      rw [hnil, List.length_nil] at htotal
      omega
    | reused _ hnext => exact hnext

/-- Two small blocks at a time and one page-sized one: two and one are cut off, however
often they are freed and asked for again, with other sizes and alignments. -/
theorem carved_eq_peak_cycles :
    ∃ h, (SlabHeap.new fun _ => 0).setBacking 4096 65536 = .ok h ∧
    ∃ s, Run Census.Step (Census.start h)
      [.alloc ⟨9, 4, by decide, by decide⟩, .alloc ⟨12, 1, by decide, by decide⟩,
        .dealloc 4096 ⟨9, 4, by decide, by decide⟩, .alloc ⟨10, 8, by decide, by decide⟩,
        .dealloc 4112 ⟨12, 1, by decide, by decide⟩, .alloc ⟨11, 2, by decide, by decide⟩,
        .alloc ⟨3000, 8, by decide, by decide⟩, .dealloc 8192 ⟨3000, 8, by decide, by decide⟩,
        .alloc ⟨40, 4096, by decide, by decide⟩] s ∧
      s.peak (.sized 1) = 2 ∧ s.peak (.large (2 ^ 12)) = 1 ∧
      s.carved (.sized 1) = s.peak (.sized 1) ∧
      s.carved (.large (2 ^ 12)) = s.peak (.large (2 ^ 12)) := by
  refine ⟨_, rfl, ?_⟩
  refine exists_run_of_exec (by decide +kernel) fun s hrun hpeak => and_assoc.mp ⟨hpeak, ?_⟩
  have hback : (SlabHeap.new fun _ => 0).setBacking 4096 65536 = .ok _ := rfl
  obtain ⟨hsized, hlarge, -⟩ := carved_eq_peak (by decide) hback hrun
  exact ⟨hsized 1 (by decide), hlarge 12 (by decide)⟩

end Qunix.Mm.Slab
