/-
Runs of the frame allocator.

A `Sys` is the allocator with what its clients know: the blocks they hold and
the ranges offered so far. A run is any sequence of admissible calls. Clients
write into the blocks they hold at any time; the one thing they may not do is
forge the tag of a block head, because the allocator has no other record of
which blocks are free.
-/

import Qunix.Lib.Run
import Qunix.Mm.Carve

namespace Qunix.Mm

open Qunix.Lib Function

/-- The allocator and its clients. -/
structure Sys where
  buddy : Buddy
  live : List Block
  offered : List (Nat × Nat)

inductive Call where
  | addRegion (start len : Nat)
  | alloc (order : Nat)
  | free (pa order : Nat)
  /-- A client stores a word into a block it holds. -/
  | write (addr value : Nat)
deriving DecidableEq, Repr

namespace Sys

def start (mem : Nat → Nat) : Sys where
  buddy := Buddy.new mem
  live := []
  offered := []

/-- The calls the clients may make: ranges are disjoint and `u64`s, a freed
block is live, and a store stays inside a live block and does not put a free
tag of its head into its tag word. -/
def Admissible (s : Sys) : Call → Prop
  | .addRegion start len =>
    start < 2 ^ 64 ∧ len < 2 ^ 64 ∧ ∀ p ∈ s.offered, RangesApart (start, len) p
  | .alloc _ => True
  | .free pa order => ⟨pa, order⟩ ∈ s.live
  | .write addr value => 8 ∣ addr ∧ ∃ c ∈ s.live, c.base ≤ addr ∧
      addr + 8 ≤ c.base + blockSize c.order ∧
      (addr = c.base + offTag → ∀ o ≤ maxOrder, value ≠ freeTag c.base o)

instance (s : Sys) : (call : Call) → Decidable (s.Admissible call)
  | .addRegion _ _ => inferInstanceAs (Decidable (_ ∧ _ ∧ _))
  | .alloc _ => inferInstanceAs (Decidable True)
  | .free _ _ => inferInstanceAs (Decidable (_ ∈ _))
  | .write _ _ => inferInstanceAs (Decidable (_ ∧ ∃ c ∈ s.live, _ ∧ _ ∧ _))

def perform (s : Sys) : Call → Except Panic Sys
  | .addRegion start len => do
    let buddy ← s.buddy.addRegion start len
    pure { s with buddy := buddy, offered := (start, len) :: s.offered }
  | .alloc order => do
    let (popped, buddy) ← s.buddy.alloc order
    match popped with
    | none => pure { s with buddy := buddy }
    | some pa => pure { s with buddy := buddy, live := ⟨pa, order⟩ :: s.live }
  | .free pa order => do
    let buddy ← s.buddy.free pa order
    pure { s with buddy := buddy, live := s.live.erase ⟨pa, order⟩ }
  | .write addr value =>
    .ok { s with buddy := { s.buddy with mem := update s.buddy.mem addr value } }

/-- One admissible call that returns. -/
def step (s : Sys) (call : Call) : Option Sys :=
  if s.Admissible call then (s.perform call).toOption else none

/-- The calls that must move a counter past its width. -/
def Exhausted (s : Sys) : Call → Prop
  | .addRegion _ len =>
    2 ^ 64 ≤ s.buddy.malformedRegionBytes + len ∨ 2 ^ 32 ≤ s.buddy.refusedRegions + 1
  | _ => False

/-- The bytes of the ranges offered so far that do not leave the address space. -/
def offeredBytes (offered : List (Nat × Nat)) : Nat :=
  ((offered.filter fun p => p.1 + p.2 < 2 ^ 64).map Prod.snd).sum

/-- The invariant of runs. Recorded regions are parts of offered ranges, and so
are the bytes counted as lost. -/
structure Inv (s : Sys) : Prop where
  sound : ∃ lists, s.buddy.Sound s.live lists
  apart : s.offered.Pairwise RangesApart
  regions : ∀ r ∈ s.buddy.regions, r.1 < r.2 ∧ ∃ p ∈ s.offered, p.1 ≤ r.1 ∧ r.2 ≤ p.1 + p.2
  lost : s.buddy.lostBytes ≤ offeredBytes s.offered
  rejections : s.buddy.rejections = [0, 0, 0]

/-! ### What one call does -/

theorem step_eq_some {s t : Sys} {call : Call} :
    s.step call = some t ↔ s.Admissible call ∧ s.perform call = .ok t :=
  ite_toOption_eq_some

/-- A call of a sound system returns and keeps it sound, or is exhausted. -/
def Outcome (s : Sys) (call : Call) : Prop :=
  (∃ t, s.perform call = .ok t ∧ t.Inv) ∨ (s.perform call = .error .overflow ∧ s.Exhausted call)

/-- A range apart from those offered is apart from the regions recorded in them. -/
theorem fresh_of_apart {s : Sys} {base len : Nat}
    (hre : ∀ r ∈ s.buddy.regions, r.1 < r.2 ∧ ∃ p ∈ s.offered, p.1 ≤ r.1 ∧ r.2 ≤ p.1 + p.2)
    (ha : ∀ p ∈ s.offered, RangesApart (base, len) p) :
    ∀ r ∈ s.buddy.regions, min r.2 (base + len) ≤ max r.1 base := by
  intro r hr
  obtain ⟨-, p, hp, hlo, hhi⟩ := hre r hr
  have := ha p hp
  simp only [RangesApart] at this
  omega

namespace Inv

variable {s : Sys} {addr value pa order base len : Nat}

theorem init (mem : Nat → Nat) : (Sys.start mem).Inv := by
  have hf : freeBlocks (fun _ => []) = [] := by simp [freeBlocks]
  refine ⟨⟨fun _ => [], ?_⟩, by simp [Sys.start], by simp [Sys.start, Buddy.new], ?_, rfl⟩
  · refine ⟨⟨⟨⟨?_, ?_, ?_⟩, ?_, ?_, ?_⟩, ?_, ?_⟩, ?_, ?_, ?_, ?_⟩
    all_goals simp [Sys.start, Buddy.new, hf, Buddy.Untagged, listedBytes]
  · simp [Sys.start, Buddy.new, Buddy.lostBytes]

theorem alloc (h : s.Inv) (order : Nat) : s.Outcome (.alloc order) := by
  obtain ⟨lists, hs⟩ := h.sound
  refine .inl ?_
  by_cases hn : ∀ n, order ≤ n → n ≤ maxOrder → lists n = []
  · refine ⟨s, ?_, h⟩
    rw [perform, hs.alloc_none hn]
    rfl
  · push Not at hn
    obtain ⟨n, hlo, hhi, hl⟩ := hn
    obtain ⟨pa, b', lists', ha, hs', hr, hc, -⟩ :=
      hs.alloc_some hlo hhi hl
    refine ⟨{ s with buddy := b', live := ⟨pa, order⟩ :: s.live }, ?_,
      ⟨lists', hs'⟩, h.apart, ?_, ?_, ?_⟩
    · rw [perform, ha]
      rfl
    · simpa [hr] using h.regions
    · simpa [Buddy.lostBytes_of_counters hc] using h.lost
    · simpa [Buddy.rejections_of_counters hc] using h.rejections

theorem free (h : s.Inv) (hl : ⟨pa, order⟩ ∈ s.live) : s.Outcome (.free pa order) := by
  obtain ⟨lists, hs⟩ := h.sound
  obtain ⟨b', lists', hf, hs', hr, hc, -⟩ := (hs.takeLive hl).free_ok
  refine .inl ⟨{ s with buddy := b', live := s.live.erase ⟨pa, order⟩ }, ?_,
    ⟨lists', hs'⟩, h.apart, ?_, ?_, ?_⟩
  · rw [perform, hf]
    rfl
  · simpa [hr] using h.regions
  · simpa [Buddy.lostBytes_of_counters hc] using h.lost
  · simpa [Buddy.rejections_of_counters hc] using h.rejections

theorem write (h : s.Inv) (hadm : s.Admissible (.write addr value)) :
    s.Outcome (.write addr value) := by
  obtain ⟨lists, hs⟩ := h.sound
  obtain ⟨-, c, hc, hlo, hhi, htag⟩ := hadm
  exact .inl ⟨_, rfl, ⟨lists, hs.toPartition.write hc hlo (by omega) htag, hs.orders,
    hs.freeBytes, hs.regionsApart, hs.regionsLimit⟩, h.apart, h.regions, h.lost,
    h.rejections⟩

theorem offeredBytes_cons (p : Nat × Nat) (offered : List (Nat × Nat)) :
    offeredBytes (p :: offered) =
      (if p.1 + p.2 < 2 ^ 64 then p.2 else 0) + offeredBytes offered := by
  unfold offeredBytes
  by_cases hp : p.1 + p.2 < 2 ^ 64
  · rw [List.filter_cons_of_pos (by simpa using hp), if_pos hp, List.map_cons, List.sum_cons]
  · rw [List.filter_cons_of_neg (by simpa using hp), if_neg hp, Nat.zero_add]

theorem offeredBytes_lt {offered : List (Nat × Nat)} (ha : offered.Pairwise RangesApart) :
    offeredBytes offered < 2 ^ 64 := by
  have hle : offeredBytes offered ≤ 2 ^ 64 - 1 := by
    refine sum_length_le (ha.filter fun p => p.1 + p.2 < 2 ^ 64) fun p hp => ?_
    have := of_decide_eq_true (List.mem_filter.mp hp).2
    omega
  exact Nat.lt_of_le_of_lt hle (by decide)

theorem addRegion (h : s.Inv) (hadm : s.Admissible (.addRegion base len)) :
    s.Outcome (.addRegion base len) := by
  obtain ⟨lists, hs⟩ := h.sound
  obtain ⟨-, -, ha⟩ := hadm
  have ho : ((base, len) :: s.offered).Pairwise RangesApart :=
    List.pairwise_cons.mpr ⟨ha, h.apart⟩
  have hc := offeredBytes_cons (base, len) s.offered
  have hl := h.lost
  have hro : base + len < 2 ^ 64 → s.buddy.lostBytes + len < 2 ^ 64 := by
    intro hw
    have := offeredBytes_lt ho
    rw [if_pos hw] at hc
    omega
  have hf := fresh_of_apart h.regions ha
  rcases hs.addRegion_outcome hf (fun r hr => (h.regions r hr).1) hro with
    ⟨b', lists', hadd, hs', hre, hl', hregions⟩ | ⟨her, he⟩
  · refine .inl ⟨{ s with buddy := b', offered := (base, len) :: s.offered }, ?_,
      ⟨lists', hs'⟩, ho, fun r hr => ?_, ?_, hre.trans h.rejections⟩
    · rw [perform, hadd]
      rfl
    · rcases hregions r hr with hold | ⟨hlo, hlt, hhi⟩
      · obtain ⟨hlt, p, hp, hin⟩ := h.regions r hold
        exact ⟨hlt, p, List.mem_cons_of_mem _ hp, hin⟩
      · exact ⟨hlt, (base, len), List.mem_cons_self, hlo, hhi⟩
    · simp only at hc ⊢
      omega
  · refine .inr ⟨?_, he⟩
    rw [perform, her]
    rfl

theorem outcome (h : s.Inv) {call : Call} (hadm : s.Admissible call) : s.Outcome call := by
  cases call with
  | addRegion base len => exact h.addRegion hadm
  | alloc order => exact h.alloc order
  | free pa order => exact h.free hadm
  | write addr value => exact h.write hadm

theorem step {t : Sys} {call : Call} (h : s.Inv) (hs : s.step call = some t) : t.Inv := by
  obtain ⟨hadm, hp⟩ := step_eq_some.mp hs
  rcases h.outcome hadm with ⟨t', hok, hinv⟩ | ⟨he, -⟩
  · rw [hok, Except.ok.injEq] at hp
    exact hp ▸ hinv
  · rw [he] at hp
    cases hp

end Inv

/-! ### Soundness of whole runs -/

/-- The free lists `lists` are what the words of `b` spell out, and with the
live blocks they tile the regions. -/
structure WellFormed (b : Buddy) (live : List Block) (lists : Nat → List Nat) : Prop where
  tiling : Tiling pageSize b.regions (live ++ freeBlocks lists)
  linked : ∀ o ≤ maxOrder, Linked b.next b.prev NIL NIL (b.freeLists o) (lists o)
  heads : ∀ o ≤ maxOrder, ∀ c ∈ live ++ freeBlocks lists,
    c.base ∈ lists o ↔ b.word c.base offTag = freeTag c.base o
  nonempty : ∀ n, b.nonempty.testBit n = true ↔ n ≤ maxOrder ∧ lists n ≠ []
  freeBytes : b.freeBytes = listedBytes lists

theorem Inv.wellFormed {s : Sys} (h : s.Inv) : ∃ lists, WellFormed s.buddy s.live lists := by
  obtain ⟨lists, hs⟩ := h.sound
  exact ⟨lists, hs.tiling, hs.linked,
    fun o ho c hc => (hs.tag_iff hs.untagged ho hc).symm, hs.nonempty, hs.freeBytes⟩

/-- The steps of the allocator and its clients. -/
def Step (s : Sys) (call : Call) (t : Sys) : Prop := s.step call = some t

/-- In every run the lists are well formed, no rejection is counted, and the
next admissible call returns unless a counter of `addRegion` is exhausted. -/
theorem allocator_sound {mem : Nat → Nat} {calls : List Call} {s : Sys}
    (hrun : Run Step (Sys.start mem) calls s) :
    (∃ lists, WellFormed s.buddy s.live lists) ∧
      s.buddy.foreignFrees = 0 ∧ s.buddy.rejectedUnlinks = 0 ∧ s.buddy.truncatedLists = 0 ∧
      ∀ call, s.Admissible call → ¬ s.Exhausted call → ∃ t, s.perform call = .ok t := by
  have hinv : s.Inv := hrun.invariant (fun _ _ _ h hstep => h.step hstep) (Inv.init mem)
  have hrejections := hinv.rejections
  simp only [Buddy.rejections, List.cons.injEq, and_true] at hrejections
  refine ⟨hinv.wellFormed, hrejections.1, hrejections.2.1, hrejections.2.2,
    fun call hadm hroom => ?_⟩
  rcases hinv.outcome hadm with ⟨t, hok, -⟩ | ⟨-, hexhausted⟩
  · exact ⟨t, hok⟩
  · exact absurd hexhausted hroom

/-- Two regions, two allocations, a store into a tag word and a free. -/
theorem allocator_sound_split_and_free :
    ∃ s, Run Step (Sys.start fun _ => 0)
      [.addRegion 4096 20480, .addRegion 65536 8192, .alloc 0, .alloc 1, .write 65552 7,
        .free 4096 0] s ∧
      s.live = [⟨65536, 1⟩] ∧ ∃ lists, WellFormed s.buddy s.live lists := by
  refine exists_run_of_exec (by decide +kernel)
    fun s hrun hlive => ⟨hlive, ?_⟩
  exact (allocator_sound hrun).1

/-- An owner may put any word into the middle of its block, a free tag of that
page included; and the counter of malformed bytes can be driven over its width
by disjoint ranges. -/
theorem interior_tag_and_counter_overflow :
    (∃ s, Run Step (Sys.start fun _ => 0)
      [.addRegion 8192 8192, .alloc 1, .write 12304 (freeTag 12288 0)] s ∧
      s.buddy.regions = [(8192, 16384)] ∧ s.buddy.word 12288 offTag = freeTag 12288 0 ∧
      ∀ l, Linked s.buddy.next s.buddy.prev NIL NIL (s.buddy.freeLists 0) l → 12288 ∉ l) ∧
    ∃ s, Run Step (Sys.start fun _ => 0) [.addRegion 0 1] s ∧
      s.Admissible (.addRegion 1 (2 ^ 64 - 1)) ∧
      s.perform (.addRegion 1 (2 ^ 64 - 1)) = .error .overflow := by
  constructor
  · refine exists_run_of_exec
      (p := fun s => s.buddy.regions = [(8192, 16384)] ∧
        s.buddy.word 12288 offTag = freeTag 12288 0 ∧ s.buddy.freeLists 0 = NIL)
      (by decide +kernel) fun s _ hfacts => ?_
    obtain ⟨hregions, htag, hhead⟩ := hfacts
    refine ⟨hregions, htag, fun l hl => ?_⟩
    rw [hl.head_eq_nil_iff.mp hhead]
    exact List.not_mem_nil
  · refine exists_run_of_exec
      (p := fun s => s.offered = [(0, 1)] ∧ s.buddy.malformedRegionBytes = 1)
      (by decide +kernel) fun s _ hfacts => ?_
    obtain ⟨hoffered, hbytes⟩ := hfacts
    refine ⟨⟨by decide, by decide, ?_⟩, ?_⟩
    · rw [hoffered]
      decide
    · simp only [perform, Buddy.addRegion, Buddy.malformed, hbytes]
      rfl

end Sys

end Qunix.Mm
