/-
Frees that are refused (`free` in `crates/qunix-mm/src/buddy.rs`).

`free` adds the block to `free_bytes`, looks at the request, and on three exits takes
the bytes back and bills them to `foreign_frees`. Over any state, a request for a
block that is no aligned part of a recorded region leaves through one of them and
changes nothing else; every other request leaves `foreign_frees` alone. Both
sums are checked: a counter without room for the block stops the machine.
-/

import Qunix.Mm.Accounting
import Qunix.Mm.Corruption

namespace Qunix.Mm

open Qunix.Lib Function

namespace Buddy

variable {b b' : Buddy} {pa order : Nat}

/-- The address is in no recorded region, the block overruns the region that the
address is in, or the address is not a multiple of the block's size. -/
def Unowned (b : Buddy) (pa order : Nat) : Prop :=
  (∀ r ∈ b.regions, ¬ (r.1 ≤ pa ∧ pa < r.2)) ∨
    (∃ r, b.regionOf pa = some r ∧ r.2 < pa + blockSize order) ∨ ¬ blockSize order ∣ pa

theorem regionOf_eq_none :
    b.regionOf pa = none ↔ ∀ r ∈ b.regions, ¬ (r.1 ≤ pa ∧ pa < r.2) := by
  simp [regionOf]

theorem regionOf_freeBytes (freeBytes : Nat) :
    { b with freeBytes := freeBytes }.regionOf pa = b.regionOf pa := rfl

theorem regionOf_eq_some {r : Nat × Nat} (h : b.regionOf pa = some r) :
    r ∈ b.regions ∧ r.1 ≤ pa ∧ pa < r.2 := by
  have hin := List.find?_some h
  simp only [Bool.and_eq_true, decide_eq_true_eq] at hin
  exact ⟨List.mem_of_find?_eq_some h, hin⟩

theorem unowned_of_regionOf {r : Nat × Nat} (h : b.regionOf pa = some r) :
    b.Unowned pa order ↔ r.2 - pa < blockSize order ∨ pa % blockSize order ≠ 0 := by
  obtain ⟨hr, hlo, hhi⟩ := regionOf_eq_some h
  rw [ne_eq, ← Nat.dvd_iff_mod_eq_zero]
  constructor
  · rintro (hn | ⟨r', hr', ho⟩ | hdvd)
    · exact absurd ⟨hlo, hhi⟩ (hn r hr)
    · cases h.symm.trans hr'
      exact .inl (by omega)
    · exact .inr hdvd
  · rintro (ho | hdvd)
    · exact .inr (.inl ⟨r, h, by omega⟩)
    · exact .inr (.inr hdvd)

/-! ### The requests that are refused -/

theorem free_of_unowned (ho : order ≤ maxOrder) (hre : b.regions ≠ [])
    (h : b.Unowned pa order) :
    b.free pa order = (do
      let freeBytes ← addU64 b.freeBytes (blockSize order)
      { b with freeBytes := freeBytes }.refuse order) := by
  rw [Buddy.free, if_neg (Nat.not_lt.mpr ho), if_neg hre]
  congr 1
  funext freeBytes
  cases hr : b.regionOf pa with
  | none => simp [regionOf_freeBytes, hr]
  | some r =>
    simp only [regionOf_freeBytes, hr]
    rcases (unowned_of_regionOf hr).mp h with hov | hmod
    · rw [if_pos hov]
    · by_cases hov : r.2 - pa < blockSize order
      · rw [if_pos hov]
      · rw [if_neg hov, if_pos hmod]

theorem refuse_eq {freeBytes : Nat} (hfr : freeBytes = b.freeBytes + blockSize order)
    (hf : b.foreignFrees + blockSize order < 2 ^ 64) :
    { b with freeBytes := freeBytes }.refuse order =
      .ok { b with foreignFrees := b.foreignFrees + blockSize order } := by
  have hsub : freeBytes - blockSize order = b.freeBytes := by omega
  simp only [refuse]
  rw [subU64_ok (by omega), addU64_ok hf, hsub]
  rfl

theorem freeStores_of_unowned (h : b.Unowned pa order) : b.freeStores pa order = [] := by
  unfold freeStores
  split
  · rfl
  · split
    · rename_i freeBytes first last _ hr
      exact if_pos ((unowned_of_regionOf hr).mp h)
    · rfl

/-! ### The requests that are not -/

theorem foreignFrees_of_counters (h : b'.counters = b.counters) :
    b'.foreignFrees = b.foreignFrees := by
  simp only [counters, List.cons.injEq] at h
  exact h.1

theorem foreignFrees_unlink {merged : Bool} (h : b.unlink pa order = .ok (merged, b')) :
    b'.foreignFrees = b.foreignFrees := by
  unfold Buddy.unlink at h
  split at h
  · cases h
    rfl
  · simp only at h
    split at h
    · obtain ⟨_, -, h⟩ := bind_eq_ok h
      cases h
      rfl
    · cases h
      repeat' split
      all_goals rfl

theorem foreignFrees_coalesce {first last pa' order' : Nat} (levels : Nat)
    (h : b.coalesce first last pa order levels = .ok (pa', order', b')) :
    b'.foreignFrees = b.foreignFrees := by
  induction levels generalizing b pa order with
  | zero =>
    cases h
    rfl
  | succ levels ih =>
    rw [Buddy.coalesce] at h
    split at h
    · cases h
      rfl
    · obtain ⟨⟨merged, b₁⟩, hu, h⟩ := bind_eq_ok h
      have hb₁ := foreignFrees_unlink hu
      cases merged with
      | false =>
        cases h
        exact hb₁
      | true => exact (ih h).trans hb₁

theorem foreignFrees_free (ho : order ≤ maxOrder) (hre : b.regions ≠ [])
    (how : ¬ b.Unowned pa order) (h : b.free pa order = .ok b') :
    b'.foreignFrees = b.foreignFrees := by
  rw [Buddy.free, if_neg (Nat.not_lt.mpr ho), if_neg hre] at h
  obtain ⟨freeBytes, -, h⟩ := bind_eq_ok h
  cases hr : b.regionOf pa with
  | none => exact absurd (.inl (regionOf_eq_none.mp hr)) how
  | some r =>
    rw [unowned_of_regionOf hr, not_or] at how
    simp only [regionOf_freeBytes, hr, if_neg how.1, if_neg how.2] at h
    obtain ⟨_, -, h⟩ := bind_eq_ok h
    obtain ⟨⟨pa', order', b₁⟩, hc, h⟩ := bind_eq_ok h
    cases h
    rw [foreignFrees_of_counters push_counters, foreignFrees_coalesce _ hc]

/-- Where both counters have room for the block: a request for a block that is not an
aligned part of a recorded region returns, stores nothing, and leaves the state as
it was but for its bytes in `foreign_frees`; and nothing else is refused. -/
theorem free_refused (b : Buddy) (pa order : Nat) (ho : order ≤ maxOrder)
    (hregions : b.regions ≠ []) (hfree : b.freeBytes + blockSize order < 2 ^ 64)
    (hforeign : b.foreignFrees + blockSize order < 2 ^ 64) :
    (b.Unowned pa order →
      b.free pa order = .ok { b with foreignFrees := b.foreignFrees + blockSize order } ∧
        b.freeStores pa order = []) ∧
    ∀ b', b.free pa order = .ok b' → b'.foreignFrees ≠ b.foreignFrees → b.Unowned pa order := by
  constructor
  · intro h
    refine ⟨?_, freeStores_of_unowned h⟩
    rw [free_of_unowned ho hregions h, addU64_ok hfree]
    exact refuse_eq rfl hforeign
  · intro b' hb' hne
    by_contra howned
    exact hne (foreignFrees_free ho hregions howned hb')

/-- The state after a first range of whole pages from address zero. -/
theorem addRegion_first (len : Nat)
    (h : ((Buddy.new fun _ => 0).addRegion 0 len).toOption.map
      (fun b => (b.regions, b.freeBytes, b.foreignFrees)) = some ([(0, len)], len, 0)) :
    ∃ b, (Buddy.new fun _ => 0).addRegion 0 len = .ok b ∧ b.regions = [(0, len)] ∧
      b.freeBytes = len ∧ b.foreignFrees = 0 := by
  obtain ⟨b, hb, heq⟩ := Option.map_eq_some_iff.mp h
  simp only [Prod.mk.injEq] at heq
  exact ⟨b, ok_of_toOption hb, heq⟩

/-- A free of two pages at the second page of a region. -/
theorem free_refused_misaligned :
    ∃ b, (Buddy.new fun _ => 0).addRegion 0 8192 = .ok b ∧
      b.free 4096 1 = .ok { b with foreignFrees := 8192 } ∧ b.freeStores 4096 1 = [] := by
  obtain ⟨b, hb, hregions, hfree, hforeign⟩ := addRegion_first 8192 (by decide +kernel)
  have hsize : blockSize 1 = 8192 := rfl
  obtain ⟨hok, hstores⟩ := (free_refused b 4096 1 (by decide) (by simp [hregions])
    (by rw [hfree]; decide) (by rw [hforeign]; decide)).1 (.inr (.inr (by decide)))
  rw [hforeign, hsize] at hok
  exact ⟨b, hb, hok, hstores⟩

/-! ### Counters without room -/

theorem refused_frees (ho : order ≤ maxOrder) (hr : b.regions ≠ [])
    (h : b.Unowned pa order) (hf : b.freeBytes + blockSize order < 2 ^ 64) (n : Nat)
    (hn : b.foreignFrees + n * blockSize order < 2 ^ 64) :
    (List.replicate n (pa, order)).foldlM (fun b c => b.free c.1 c.2) b =
      .ok { b with foreignFrees := b.foreignFrees + n * blockSize order } := by
  induction n generalizing b with
  | zero => simp [pure, Except.pure]
  | succ n ih =>
    rw [Nat.succ_mul] at hn
    have hfi : b.free pa order =
        .ok { b with foreignFrees := b.foreignFrees + blockSize order } := by
      rw [free_of_unowned ho hr h, addU64_ok hf]
      exact refuse_eq rfl (by omega)
    rw [List.replicate_succ, List.foldlM_cons, bind_of_eq_ok hfi,
      ih (b := { b with foreignFrees := b.foreignFrees + blockSize order }) hr h hf
        (by simp only; omega)]
    simp only [Nat.succ_mul]
    congr 2
    omega

theorem free_overflows (ho : order ≤ maxOrder) (hr : b.regions ≠ []) (h : b.Unowned pa order)
    (hfu : 2 ^ 64 ≤ b.freeBytes + blockSize order ∨ 2 ^ 64 ≤ b.foreignFrees + blockSize order) :
    b.free pa order = .error .overflow := by
  rw [free_of_unowned ho hr h]
  by_cases hfr : b.freeBytes + blockSize order < 2 ^ 64
  · have hf : ¬ b.foreignFrees + blockSize order < 2 ^ 64 := by omega
    rw [addU64_ok hfr, bind_of_eq_ok rfl]
    simp only [refuse]
    rw [subU64_ok (by omega), addU64, if_neg hf]
    rfl
  · rw [addU64, if_neg hfr]
    rfl

/-- With all whole pages of the address space free, the free of the last page, which is
in no region, overflows `free_bytes`. With one page free, `2 ^ 34 - 1` frees of a
gigabyte that is in no region are refused, and the next overflows `foreign_frees`. -/
theorem refused_free_overflows :
    (∃ b, (Buddy.new fun _ => 0).addRegion 0 (2 ^ 64 - 1) = .ok b ∧
      b.regions = [(0, 2 ^ 64 - 4096)] ∧ b.free (2 ^ 64 - 4096) 0 = .error .overflow) ∧
    ∃ b₀ b, (Buddy.new fun _ => 0).addRegion 0 4096 = .ok b₀ ∧
      (List.replicate (2 ^ 34 - 1) (2 ^ 40, 18)).foldlM (fun b c => b.free c.1 c.2) b₀ = .ok b ∧
      b.regions = [(0, 4096)] ∧ b.free (2 ^ 40) 18 = .error .overflow := by
  constructor
  · rcases (filling_new fun _ => 0).addRegion_billed 0
      (show _ + (2 ^ 64 - 1) < 2 ^ 64 by decide) (by decide) with
      ⟨b, hb, hbilled, -⟩ | ⟨-, -, hover⟩
    · have hpages : wholePages 0 (2 ^ 64 - 1) = some (0, 2 ^ 64 - 4096) := by decide
      cases hbilled with
      | malformed hw => cases hpages.symm.trans hw
      | refused _ hfull => cases hfull
      | @accepted addr last hw =>
        have heq := Option.mem_unique hpages hw
        cases heq
        have h := wholePages_eq_some hw
        obtain ⟨hregions, -, hfree⟩ := pushAll_spec
          ((Buddy.new fun _ => 0).accept (2 ^ 64 - 1) 0 (2 ^ 64 - 4096))
          (carved 0 (2 ^ 64 - 4096) ((2 ^ 64 - 4096 - 0) / pageSize))
        rw [(carved_pages h).2] at hfree
        refine ⟨_, hb, hregions, free_overflows (by decide) ?_ (.inl ?_) (.inl ?_)⟩
        · rw [hregions]
          exact List.cons_ne_nil _ _
        · rw [hregions]
          intro r hr
          rw [List.mem_singleton.mp hr]
          decide
        · rw [hfree]
          decide
    · exact absurd hover (by decide)
  · obtain ⟨b₀, hb₀, hregions, hfree, hforeign⟩ := addRegion_first 4096 (by decide +kernel)
    have hne : b₀.regions ≠ [] := by
      rw [hregions]
      exact List.cons_ne_nil _ _
    have hunowned : b₀.Unowned (2 ^ 40) 18 := by
      refine .inl ?_
      rw [hregions]
      intro r hr
      rw [List.mem_singleton.mp hr]
      decide
    have hrun := refused_frees (by decide) hne hunowned (by rw [hfree]; decide) (2 ^ 34 - 1)
      (by rw [hforeign]; decide)
    refine ⟨b₀, _, hb₀, hrun, hregions, free_overflows (by decide) hne hunowned (.inr ?_)⟩
    change 2 ^ 64 ≤ b₀.foreignFrees + (2 ^ 34 - 1) * blockSize 18 + blockSize 18
    rw [hforeign]
    decide

end Buddy

end Qunix.Mm
