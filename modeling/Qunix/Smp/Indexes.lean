/-
Whose index is whose.

The bootstrap processor takes index 0. Every other processor takes the number that the
firmware gave it, and the firmware may have given number 0 to any of them. Where it
gave it to another one, two processors register their blocks at index 0, the second
finds the idle bit of the first set, and it enters the scheduler without a thread of
its own (`index_shared_with_bootstrap`). The only other thing that processors can share
is the byte that `CPUID` has for their APIC ids; without either, whatever the
interleaving, every index belongs to one processor (`indexes_private_iff`).
-/

import Mathlib.Data.List.Nodup
import Qunix.Smp.Bringup

namespace Qunix.Smp

open Function Qunix.Lib

/-! ### Processors told apart -/

namespace MpResponse

variable {r : MpResponse} {p q i : Nat}

theorem WellFormed.eq_of_lapicId (h : r.WellFormed) {cpu cpu' : MpInfo} (hcpu : cpu ∈ r.cpus)
    (hcpu' : cpu' ∈ r.cpus) (heq : cpu.lapicId = cpu'.lapicId) : cpu = cpu' :=
  List.inj_on_of_nodup_map h.lapicIds hcpu hcpu' heq

theorem WellFormed.mem_of_labels (h : r.WellFormed) (hp : r.Labels p i) :
    ∃ cpu ∈ r.cpus, cpu.lapicId = p := by
  rcases hp with ⟨rfl, -⟩ | ⟨cpu, hcpu, hl, -⟩
  · exact h.bootstrap
  · exact ⟨cpu, hcpu, hl⟩

theorem WellFormed.labels_lt (h : r.WellFormed) (hp : r.Labels p i) : i < maxCpus := by
  rcases hp with ⟨-, rfl⟩ | ⟨cpu, hcpu, -, -, rfl⟩
  · decide
  · exact h.small cpu hcpu

theorem Unshared.apic_inj (hu : r.Unshared) (h : r.WellFormed)
    (hbsp : initialApicId r.bspLapicId < maxCpus) {j : Nat} (hp : r.Labels p i)
    (hq : r.Labels q j) (hpa : initialApicId p < maxCpus)
    (heq : initialApicId p = initialApicId q) : p = q := by
  obtain ⟨cpu, hcpu, rfl⟩ := h.mem_of_labels hp
  obtain ⟨cpu', hcpu', rfl⟩ := h.mem_of_labels hq
  rw [(hu hbsp).2 cpu hcpu cpu' hcpu' hpa heq]

end MpResponse

/-! ### What a step does -/

namespace Boot

variable {r : MpResponse} {s t : Boot} {p q i : Nat}

@[simp] theorem goto_pc_self (s : Boot) (p : Nat) (pc : Pc) : (s.goto p pc).pc p = pc :=
  update_self ..

theorem goto_pc_of_ne {k : Pc} (h : q ≠ p) : (s.goto p k).pc q = s.pc q :=
  update_of_ne h ..

/-- A step of processor `p`, for responses that are well formed: what it stores and
where it goes. -/
inductive Moves (r : MpResponse) (s : Boot) (p : Nat) : Boot → Prop where
  | refused (hfrom : (s.pc p).rank < 5) (hstarted : p = r.bspLapicId ∨ s.pc p ≠ .held) :
      Moves r s p (s.goto p .panicked)
  | announced (cpuId : Nat) (hlabel : r.Labels p cpuId) (hfrom : (s.pc p).rank = 0)
      (hstarted : p = r.bspLapicId ∨ s.pc p ≠ .held) (hapic : initialApicId p < maxCpus) :
      Moves r s p ({ s with
        apicToCpu := update s.apicToCpu (initialApicId p) (some cpuId)
        cpuId := update s.cpuId p (some cpuId) }.goto p .publish)
  | published (cpuId : Nat) (hcpu : s.cpuId p = some cpuId) (hfrom : s.pc p = .publish) :
      Moves r s p ({ s with
        blocks := update s.blocks cpuId (some p)
        installed := s.installed + 1 }.goto p .init)
  | unchecked (hfrom : s.pc p = .init) : Moves r s p (s.goto p .adopt)
  | adopted (hfrom : s.pc p = .adopt) :
      Moves r s p ({ s with
        nextId := s.nextId + 1
        threads := update s.threads s.nextId (some (.adopted p))
        currentThread := update s.currentThread p (some s.nextId) }.goto p .mark)
  | marked (cpuId : Nat) (hcpu : s.cpuId p = some cpuId) (hfrom : s.pc p = .mark) :
      Moves r s p ({ s with idleInstalled := s.idleInstalled ||| 1 <<< cpuId }.goto p .online)
  | served (cpuId : Nat) (hcpu : s.cpuId p = some cpuId) (hfrom : s.pc p = .online) :
      Moves r s p ({ s with onlineMask := s.onlineMask ||| 1 <<< cpuId }.goto p
        (if p = r.bspLapicId then .starting r.cpus else .count))
  | skipped (cpu : MpInfo) (rest : List MpInfo) (hfrom : s.pc p = .starting (cpu :: rest)) :
      Moves r s p (s.goto p (.starting rest))
  | bootstrapped (cpu : MpInfo) (rest : List MpInfo) (hne : cpu.lapicId ≠ r.bspLapicId)
      (hfrom : s.pc p = .starting (cpu :: rest)) :
      Moves r s p ((s.goto cpu.lapicId (.entered cpu.processorId)).goto p (.starting rest))
  | finished (online : Nat) (hfrom : (s.pc p).rank = 7) :
      Moves r s p ({ s with online := online }.goto p .idle)

/-- Where the processors are. -/
structure Control (r : MpResponse) (s : Boot) : Prop where
  fresh : ∀ p, (s.pc p).rank = 0 → s.cpuId p = none
  named : ∀ p, 2 ≤ (s.pc p).rank → ∃ i, s.cpuId p = some i
  labels : ∀ p i, s.cpuId p = some i → r.Labels p i ∧ initialApicId p < maxCpus
  entered : ∀ p arg, s.pc p = .entered arg → r.Labels p arg ∧ p ≠ r.bspLapicId
  starting : ∀ p rest, s.pc p = .starting rest → p = r.bspLapicId ∧ rest <:+ r.cpus ∧
    ∀ cpu ∈ rest, cpu.lapicId ≠ r.bspLapicId → s.pc cpu.lapicId = .held
  bootstrap : ∀ p, p ≠ r.bspLapicId → s.pc p ≠ .held →
    initialApicId r.bspLapicId < maxCpus
  /-- Nobody is started before the loop of `start_all`. -/
  unstarted : (s.pc r.bspLapicId).rank < 7 → ∀ p, p ≠ r.bspLapicId → s.pc p = .held

/-- What the tables hold. -/
structure Tables (s : Boot) : Prop where
  apic : ∀ a i, s.apicToCpu a = some i ↔ ∃ p, s.cpuId p = some i ∧ initialApicId p = a
  blocks : ∀ i p, s.blocks i = some p → s.cpuId p = some i
  registered : ∀ p i, s.cpuId p = some i → 3 ≤ (s.pc p).rank → s.blocks i = some p
  idle : ∀ i, s.idleInstalled.testBit i = true ↔ ∃ p, s.cpuId p = some i ∧ 6 ≤ (s.pc p).rank
  online : ∀ i, s.onlineMask.testBit i = true ↔ ∃ p, s.cpuId p = some i ∧ 7 ≤ (s.pc p).rank

/-- What the thread table holds. -/
structure Threads (s : Boot) : Prop where
  adopted : ∀ p, 5 ≤ (s.pc p).rank →
    ∃ id, s.currentThread p = some id ∧ s.threads id = some (.adopted p)
  fresh : ∀ id, s.nextId ≤ id → s.threads id = none

/-- Indexes, and APIC ids, of one processor only. -/
def Unique (s : Boot) : Prop :=
  ∀ p q i j, s.cpuId p = some i → s.cpuId q = some j →
    (i = j → p = q) ∧ (initialApicId p = initialApicId q → p = q)

theorem Control.unique (h : s.Control r) (hu : r.Unshared) (hr : r.WellFormed) : s.Unique := by
  have hbsp : ∀ p i, s.cpuId p = some i → initialApicId r.bspLapicId < maxCpus := by
    intro p i hp
    by_cases hne : p = r.bspLapicId
    · exact hne ▸ (h.labels p i hp).2
    · refine h.bootstrap p hne fun hh => ?_
      rw [h.fresh p (by rw [hh]; rfl)] at hp
      cases hp
  intro p q i j hp hq
  obtain ⟨hlp, hpa⟩ := h.labels p i hp
  obtain ⟨hlq, hqa⟩ := h.labels q j hq
  constructor
  · rintro rfl
    -- Two processors that are not refused get different indexes.
    obtain ⟨hz, -⟩ := hu (hbsp p i hp)
    rcases hlp with ⟨rfl, rfl⟩ | ⟨cpu, hcpu, rfl, hne, rfl⟩
    · rcases hlq with ⟨rfl, -⟩ | ⟨cpu', hcpu', rfl, hne', hid⟩
      · rfl
      · exact absurd hid (hz cpu' hcpu' hqa hne')
    · rcases hlq with ⟨rfl, hid⟩ | ⟨cpu', hcpu', rfl, -, hid⟩
      · exact absurd hid (hz cpu hcpu hpa hne)
      · rw [List.inj_on_of_nodup_map hr.processorIds hcpu' hcpu hid]
  · exact hu.apic_inj hr (hbsp p i hp) hlp hlq hpa

/-- A bit that somebody with the index sets is set by its owner, so that the test of `init`
does not find the idle bit set. -/
theorem Unique.own (hu : s.Unique) (hp : s.cpuId p = some i) {n : Nat} :
    (∃ q, s.cpuId q = some i ∧ n ≤ (s.pc q).rank) ↔ n ≤ (s.pc p).rank := by
  constructor
  · rintro ⟨q, hq, hr⟩
    rwa [(hu p q i i hp hq).1 rfl]
  · exact fun hr => ⟨p, hp, hr⟩

theorem moves_of_run (hr : r.WellFormed) (hc : s.Control r) (ht : s.Tables) (hu : s.Unique)
    (hrun : s.run r p = some t) : Moves r s p t := by
  have hlt : ∀ i, s.cpuId p = some i → i < maxCpus :=
    fun i hi => hr.labels_lt (hc.labels p i hi).1
  unfold run at hrun
  split at hrun
  · rename_i hpc
    split_ifs at hrun with hbsp
    cases hrun
    unfold announce
    split_ifs with ha
    · exact .announced 0 (.inl ⟨hbsp, rfl⟩) (by rw [hpc]; rfl) (.inl hbsp) ha
    · exact .refused (by rw [hpc]; decide) (.inl hbsp)
  · rename_i arg hpc
    cases hrun
    obtain ⟨hl, -⟩ := hc.entered p arg hpc
    have hs : arg % 2 ^ 32 = arg := Nat.mod_eq_of_lt (Nat.lt_trans (hr.labels_lt hl) (by decide))
    rw [hs]
    unfold announce
    split_ifs with ha
    · exact .announced arg hl (by rw [hpc]; rfl) (.inr (by simp [hpc])) ha
    · exact .refused (by rw [hpc]; exact Nat.zero_lt_succ _) (.inr (by simp [hpc]))
  · rename_i hpc
    obtain ⟨i, hi, rfl⟩ := Option.map_eq_some_iff.mp hrun
    unfold publish
    rw [if_pos (hlt i hi)]
    exact .published i hi hpc
  · rename_i hpc
    obtain ⟨i, hi, rfl⟩ := Option.map_eq_some_iff.mp hrun
    unfold checkIdle
    rw [if_neg]
    · exact .unchecked hpc
    · rw [ht.idle, hu.own hi, hpc]
      decide
  · rename_i hpc
    cases hrun
    unfold adopt allocate
    split
    · rename_i id s' heq
      split_ifs at heq
      cases heq
      exact .adopted hpc
    · exact .refused (by rw [hpc]; decide) (.inr (by simp [hpc]))
  · rename_i hpc
    obtain ⟨i, hi, rfl⟩ := Option.map_eq_some_iff.mp hrun
    exact .marked i hi hpc
  · rename_i hpc
    obtain ⟨i, hi, rfl⟩ := Option.map_eq_some_iff.mp hrun
    unfold markOnline
    rw [if_pos (hlt i hi)]
    exact .served i hi hpc
  · rename_i rest hpc
    cases hrun
    cases rest with
    | nil => exact .finished s.online (by rw [hpc]; rfl)
    | cons cpu rest =>
      simp only [startNext]
      split_ifs with hne
      · exact .skipped cpu rest hpc
      · exact .bootstrapped cpu rest hne hpc
  · rename_i hpc
    cases hrun
    exact .finished _ (by rw [hpc]; rfl)
  · cases hrun
  · cases hrun

/-! ### What a step keeps -/

variable {s' : Boot} {k : Pc} {cpu : MpInfo} {n cpuId : Nat}

section

variable (h : s.Control r)

include h

/-- A processor that was started goes to `k`, with the index that the new state has for
it. -/
theorem Control.goto (hpc : s'.pc = s.pc) (hcpu : ∀ q, q ≠ p → s'.cpuId q = s.cpuId q)
    (hr : 1 ≤ k.rank) (hn : 2 ≤ k.rank → ∃ i, s'.cpuId p = some i)
    (hl : ∀ i, s'.cpuId p = some i → r.Labels p i ∧ initialApicId p < maxCpus)
    (hst : p = r.bspLapicId ∨ s.pc p ≠ .held) (hla : k.rank < 7 → (s.pc p).rank < 7)
    (hstart : ∀ rest, k = .starting rest → p = r.bspLapicId ∧ rest <:+ r.cpus ∧
      ∀ cpu ∈ rest, cpu.lapicId ≠ r.bspLapicId → s.pc cpu.lapicId = .held) :
    (s'.goto p k).Control r := by
  have ho : ∀ q, q ≠ p → (s'.goto p k).pc q = s.pc q := by
    intro q hne
    rw [goto_pc_of_ne hne, hpc]
  have hs : (s'.goto p k).pc p = k := goto_pc_self ..
  -- An application processor that is still held is not the one that moves.
  have hh : ∀ q, q ≠ r.bspLapicId → s.pc q = .held → (s'.goto p k).pc q = .held := by
    intro q hne hq
    rw [ho q ?_, hq]
    rintro rfl
    rcases hst with hbsp | hnot
    · exact hne hbsp
    · exact hnot hq
  constructor
  · intro q hq
    by_cases hqp : q = p
    · rw [hqp, hs] at hq
      omega
    · rw [ho q hqp] at hq
      exact (hcpu q hqp).trans (h.fresh q hq)
  · intro q hq
    by_cases hqp : q = p
    · rw [hqp, hs] at hq
      exact hqp ▸ hn hq
    · rw [ho q hqp] at hq
      obtain ⟨i, hi⟩ := h.named q hq
      exact ⟨i, (hcpu q hqp).trans hi⟩
  · intro q i hq
    by_cases hqp : q = p
    · exact hqp ▸ hl i (hqp ▸ hq)
    · exact h.labels q i ((hcpu q hqp).symm.trans hq)
  · intro q arg hq
    by_cases hqp : q = p
    · rw [hqp, hs] at hq
      rw [hq] at hr
      cases hr
    · exact h.entered q arg (by rwa [ho q hqp] at hq)
  · intro q rest hq
    have hold : q = r.bspLapicId ∧ rest <:+ r.cpus ∧
        ∀ cpu ∈ rest, cpu.lapicId ≠ r.bspLapicId → s.pc cpu.lapicId = .held := by
      by_cases hqp : q = p
      · rw [hqp, hs] at hq
        exact hqp ▸ hstart rest hq
      · exact h.starting q rest (by rwa [ho q hqp] at hq)
    exact ⟨hold.1, hold.2.1, fun cpu hcpu hne => hh _ hne (hold.2.2 cpu hcpu hne)⟩
  · intro q hne hq
    exact h.bootstrap q hne fun hold => hq (hh q hne hold)
  · intro hlt q hne
    refine hh q hne (h.unstarted ?_ q hne)
    by_cases hbsp : r.bspLapicId = p
    · rw [hbsp, hs] at hlt
      exact hbsp ▸ hla hlt
    · rwa [ho _ hbsp] at hlt

/-- A processor that has its index goes on, and does not enter the loop of
`start_all`. -/
theorem Control.advance (hpc : s'.pc = s.pc) (hcpu : s'.cpuId = s.cpuId) (hf : 2 ≤ (s.pc p).rank)
    (hr : 1 ≤ k.rank) (hl : k.rank < 7 → (s.pc p).rank < 7) (hs : ∀ rest, k ≠ .starting rest) :
    (s'.goto p k).Control r := by
  refine h.goto hpc (fun q _ => congrFun hcpu q) hr (fun _ => ?_) (fun i hi => ?_) (.inr ?_)
    hl fun rest hk => absurd hk (hs rest)
  · rw [hcpu]
    exact h.named p hf
  · exact h.labels p i (hcpu ▸ hi)
  · intro hh
    rw [hh] at hf
    cases hf

theorem Control.skipped {rest : List MpInfo} (hf : s.pc p = .starting (cpu :: rest))
    : (s.goto p (.starting rest)).Control r := by
  obtain ⟨hbsp, hsu, hre⟩ := h.starting p _ hf
  refine h.goto rfl (fun _ _ => rfl) (by simp) (fun _ => h.named p (by simp [hf]))
    (h.labels p) (.inl hbsp) (by simp) (fun rest' hk => ?_)
  cases hk
  exact ⟨hbsp, (List.suffix_cons cpu rest).trans hsu,
    fun cpu' hcpu' => hre cpu' (List.mem_cons_of_mem _ hcpu')⟩

/-- A processor that is held, and that the loop has passed, is let go. -/
theorem Control.enter {rest : List MpInfo} (hmem : cpu ∈ r.cpus) (hne : cpu.lapicId ≠ r.bspLapicId)
    (hh : s.pc cpu.lapicId = .held) (hf : s.pc r.bspLapicId = .starting rest)
    (hn : ∀ cpu' ∈ rest, cpu'.lapicId ≠ cpu.lapicId) :
    (s.goto cpu.lapicId (.entered cpu.processorId)).Control r := by
  obtain ⟨_, hb⟩ := h.named r.bspLapicId (by simp [hf])
  have ho : ∀ q, q ≠ cpu.lapicId → (s.goto cpu.lapicId (.entered cpu.processorId)).pc q = s.pc q :=
    fun q => goto_pc_of_ne
  refine ⟨fun q hq => ?_, fun q hq => ?_, h.labels, fun q arg hq => ?_, fun q rest' hq => ?_,
    fun _ _ _ => (h.labels _ _ hb).2, fun hlt => ?_⟩
  · rcases eq_or_ne q cpu.lapicId with rfl | hqc
    · exact h.fresh _ (by rw [hh]; rfl)
    · exact h.fresh q (ho q hqc ▸ hq)
  · rcases eq_or_ne q cpu.lapicId with rfl | hqc
    · rw [goto_pc_self] at hq
      cases hq
    · exact h.named q (ho q hqc ▸ hq)
  · rcases eq_or_ne q cpu.lapicId with rfl | hqc
    · rw [goto_pc_self] at hq
      cases hq
      exact ⟨.inr ⟨cpu, hmem, rfl, hne, rfl⟩, hne⟩
    · exact h.entered q arg (ho q hqc ▸ hq)
  · rcases eq_or_ne q cpu.lapicId with rfl | hqc
    · rw [goto_pc_self] at hq
      cases hq
    · rw [ho q hqc] at hq
      obtain ⟨rfl, hs, hre⟩ := h.starting q rest' hq
      cases hf.symm.trans hq
      exact ⟨rfl, hs, fun cpu' hcpu' hne' => (ho _ (hn cpu' hcpu')).trans (hre cpu' hcpu' hne')⟩
  · rw [ho _ hne.symm, hf] at hlt
    simp at hlt

theorem Control.moves (hr : r.WellFormed) (hm : Moves r s p t) :
    t.Control r := by
  cases hm with
  | refused hf hs =>
    exact h.goto rfl (fun _ _ => rfl) (by decide) (fun hk => absurd hk (by decide))
      (h.labels p) hs (fun _ => by omega) (fun _ hk => by cases hk)
  | announced cpuId hl hf hs ha =>
    refine h.goto rfl (fun q hne => update_of_ne hne ..) (by decide)
      (fun _ => ⟨cpuId, update_self ..⟩) (fun i hi => ?_) hs (fun _ => by omega)
      (fun _ hk => by cases hk)
    simp only [update_self, Option.some.injEq] at hi
    exact ⟨hi ▸ hl, ha⟩
  | published _ _ hf | unchecked hf | adopted hf | marked _ _ hf =>
    exact h.advance rfl rfl (by rw [hf]; decide) (by decide) (fun _ => by rw [hf]; decide)
      (fun _ hk => by cases hk)
  | served cpuId hcpu hf =>
    have hra : (if p = r.bspLapicId then Pc.starting r.cpus else .count).rank = 7 := by
      split <;> rfl
    refine h.goto rfl (fun _ _ => rfl) (by omega) (fun _ => ⟨cpuId, hcpu⟩) (h.labels p)
      (.inr (by simp [hf])) (fun _ => by rw [hf]; decide) (fun rest hk => ?_)
    split_ifs at hk with hbsp
    cases hk
    refine ⟨hbsp, List.suffix_refl _, fun cpu _ hne => h.unstarted ?_ _ hne⟩
    rw [← hbsp, hf]
    decide
  | skipped cpu rest hf => exact h.skipped hf
  | bootstrapped cpu rest hne hf =>
    obtain ⟨rfl, hs, hre⟩ := h.starting p _ hf
    have hh := hre cpu List.mem_cons_self hne
    have hn := hr.lapicIds.sublist (hs.sublist.map MpInfo.lapicId)
    rw [List.map_cons, List.nodup_cons] at hn
    unfold Boot.goto
    rw [update_comm hne]
    exact (h.skipped hf).enter (hs.subset List.mem_cons_self) hne ((goto_pc_of_ne hne).trans hh)
      (goto_pc_self ..) fun cpu' hcpu' heq => hn.1 (heq ▸ List.mem_map_of_mem hcpu')
  | finished online hf =>
    exact h.advance rfl rfl (by omega) (by decide) (fun hk => absurd hk (by decide))
      (fun _ hk => by cases hk)

end

theorem testBit_or_one_shiftLeft {m : Nat} :
    (m ||| 1 <<< n).testBit i = true ↔ m.testBit i = true ∨ i = n := by
  rw [Nat.testBit_or, Nat.one_shiftLeft, Nat.testBit_two_pow, Bool.or_eq_true, decide_eq_true_eq,
    eq_comm (a := n)]

theorem rank_goto_iff (hn : n ≤ k.rank ↔ n ≤ (s.pc p).rank) (q : Nat) :
    n ≤ ((s.goto p k).pc q).rank ↔ n ≤ (s.pc q).rank := by
  by_cases hqp : q = p
  · rw [hqp, goto_pc_self, hn]
  · rw [goto_pc_of_ne hqp]

theorem exists_rank_goto (hp : s.cpuId p = some i) (hk : n ≤ k.rank) (j : Nat) :
    (∃ q, (s.goto p k).cpuId q = some j ∧ n ≤ ((s.goto p k).pc q).rank) ↔
      (∃ q, s.cpuId q = some j ∧ n ≤ (s.pc q).rank) ∨ j = i := by
  constructor
  · rintro ⟨q, hq, hle⟩
    by_cases hqp : q = p
    · rw [hqp] at hq
      exact .inr (Option.mem_unique hq hp)
    · rw [goto_pc_of_ne hqp] at hle
      exact .inl ⟨q, hq, hle⟩
  · rintro (⟨q, hq, hle⟩ | rfl)
    · by_cases hqp : q = p
      · exact ⟨p, hqp ▸ hq, by rwa [goto_pc_self]⟩
      · exact ⟨q, hq, by rwa [goto_pc_of_ne hqp]⟩
    · exact ⟨p, hp, by rwa [goto_pc_self]⟩

/-- The bits after processor `p` has gone to `k`: it sets its own where it passes rank `n`. -/
theorem bits_goto {m m' : Nat}
    (h : ∀ i, m.testBit i = true ↔ ∃ q, s.cpuId q = some i ∧ n ≤ (s.pc q).rank)
    (hm : (m' = m ∧ (n ≤ k.rank ↔ n ≤ (s.pc p).rank)) ∨
      ∃ i, m' = m ||| 1 <<< i ∧ s.cpuId p = some i ∧ n ≤ k.rank) (i : Nat) :
    m'.testBit i = true ↔ ∃ q, s.cpuId q = some i ∧ n ≤ ((s.goto p k).pc q).rank := by
  rcases hm with ⟨rfl, hn⟩ | ⟨j, rfl, hp, hn⟩
  · simp only [rank_goto_iff hn, h]
  · rw [testBit_or_one_shiftLeft, h]
    exact (exists_rank_goto hp hn i).symm

/-- A processor goes to `k` and sets the bits that are due there. -/
theorem Tables.goto (h : s.Tables) (hcpu : t.cpuId = s.cpuId) (hap : t.apicToCpu = s.apicToCpu)
    (hbl : t.blocks = s.blocks) (hpc : t.pc = (s.goto p k).pc)
    (hb : 3 ≤ k.rank → 3 ≤ (s.pc p).rank)
    (hi : (t.idleInstalled = s.idleInstalled ∧ (6 ≤ k.rank ↔ 6 ≤ (s.pc p).rank)) ∨
      ∃ i, t.idleInstalled = s.idleInstalled ||| 1 <<< i ∧ s.cpuId p = some i ∧ 6 ≤ k.rank)
    (ho : (t.onlineMask = s.onlineMask ∧ (7 ≤ k.rank ↔ 7 ≤ (s.pc p).rank)) ∨
      ∃ i, t.onlineMask = s.onlineMask ||| 1 <<< i ∧ s.cpuId p = some i ∧ 7 ≤ k.rank) :
    t.Tables := by
  refine ⟨?_, ?_, ?_, ?_, ?_⟩ <;> simp only [hcpu, hap, hbl, hpc]
  · exact h.apic
  · exact h.blocks
  · intro q i hq hr
    by_cases hqp : q = p
    · rw [hqp, goto_pc_self] at hr
      exact h.registered q i hq (hqp ▸ hb hr)
    · rw [goto_pc_of_ne hqp] at hr
      exact h.registered q i hq hr
  · exact bits_goto h.idle hi
  · exact bits_goto h.online ho

theorem Tables.announced (h : s.Tables) (hf : s.cpuId p = none)
    (hcpu : t.cpuId = update s.cpuId p (some cpuId))
    (hap : t.apicToCpu = update s.apicToCpu (initialApicId p) (some cpuId))
    (hpc : t.pc = update s.pc p .publish) (hb : t.blocks = s.blocks)
    (hid : t.idleInstalled = s.idleInstalled) (hon : t.onlineMask = s.onlineMask)
    (hu : t.Unique) : t.Tables := by
  have hs : t.cpuId p = some cpuId := by rw [hcpu, update_self]
  have ho : ∀ q, q ≠ p → t.cpuId q = s.cpuId q := by
    intro q hne
    rw [hcpu, update_of_ne hne]
  -- Who had an index before is not `p`.
  have hold : ∀ q i, s.cpuId q = some i → q ≠ p := by
    rintro q i hq rfl
    rw [hf] at hq
    cases hq
  have hr : ∀ q i n, 3 ≤ n → ((t.cpuId q = some i ∧ n ≤ (t.pc q).rank) ↔
      (s.cpuId q = some i ∧ n ≤ (s.pc q).rank)) := by
    intro q i n hn
    by_cases hqp : q = p
    · rw [hqp, hf, hpc, update_self]
      have : (Pc.publish).rank = 2 := rfl
      constructor
      · omega
      · rintro ⟨hno, -⟩
        cases hno
    · rw [ho q hqp, hpc, update_of_ne hqp]
  constructor
  · intro a i
    by_cases ha : a = initialApicId p
    · rw [hap, ha, update_self]
      constructor
      · intro hi
        exact ⟨p, hs.trans hi, rfl⟩
      · rintro ⟨q, hq, hqa⟩
        obtain rfl := (hu q p i cpuId hq hs).2 hqa
        exact hs.symm.trans hq
    · rw [hap, update_of_ne ha, h.apic]
      constructor
      · rintro ⟨q, hq, hqa⟩
        exact ⟨q, (ho q (hold q i hq)).trans hq, hqa⟩
      · rintro ⟨q, hq, hqa⟩
        have hne : q ≠ p := fun heq => ha (heq ▸ hqa.symm)
        exact ⟨q, (ho q hne).symm.trans hq, hqa⟩
  · intro i q hq
    rw [hb] at hq
    have hq := h.blocks i q hq
    exact (ho q (hold q i hq)).trans hq
  · intro q i hq hle
    obtain ⟨hq, hle⟩ := (hr q i 3 (by decide)).mp ⟨hq, hle⟩
    rw [hb]
    exact h.registered q i hq hle
  · intro i
    simp [hid, h.idle, hr _ i 6 (by decide)]
  · intro i
    simp [hon, h.online, hr _ i 7 (by decide)]

/-- The block of a processor is registered at its index, which nobody else has. -/
theorem Tables.published (h : s.Tables) (hu : s.Unique) (hp : s.cpuId p = some cpuId)
    (hf : s.pc p = .publish) (installed : Nat) :
    ({ s with
      blocks := update s.blocks cpuId (some p)
      installed := installed }.goto p .init).Tables := by
  constructor
  · exact h.apic
  · intro i q hq
    by_cases hi : i = cpuId
    · simp only [Boot.goto, hi, update_self] at hq
      rw [hi, ← Option.some.inj hq]
      exact hp
    · simp only [Boot.goto, update_of_ne hi] at hq
      exact h.blocks i q hq
  · intro q i hq hle
    by_cases hqp : q = p
    · obtain rfl : i = cpuId := Option.some.inj (hq.symm.trans (hqp ▸ hp))
      exact hqp ▸ update_self ..
    · have hi : i ≠ cpuId := fun heq => hqp ((hu q p i cpuId hq hp).1 heq)
      rw [goto_pc_of_ne hqp] at hle
      exact (update_of_ne hi ..).trans (h.registered q i hq hle)
  · exact bits_goto h.idle (.inl ⟨rfl, by simp [hf, Pc.rank]⟩)
  · exact bits_goto h.online (.inl ⟨rfl, by simp [hf, Pc.rank]⟩)

theorem Tables.moves (h : s.Tables) (hc : s.Control r) (hu : s.Unique) (hu' : t.Unique)
    (hm : Moves r s p t) : t.Tables := by
  cases hm with
  | refused hf hs =>
    have hr : (Pc.panicked).rank = 1 := rfl
    exact h.goto rfl rfl rfl rfl (by omega) (.inl ⟨rfl, by omega⟩) (.inl ⟨rfl, by omega⟩)
  | announced cpuId hl hf hs ha =>
    exact h.announced (hc.fresh p hf) rfl rfl rfl rfl rfl rfl hu'
  | published cpuId hcpu hf => exact h.published hu hcpu hf _
  | unchecked hf | adopted hf =>
    exact h.goto rfl rfl rfl rfl (by simp [hf, Pc.rank]) (.inl ⟨rfl, by simp [hf, Pc.rank]⟩)
      (.inl ⟨rfl, by simp [hf, Pc.rank]⟩)
  | marked cpuId hcpu hf =>
    exact h.goto rfl rfl rfl rfl (by simp [hf, Pc.rank]) (.inr ⟨cpuId, rfl, hcpu, by decide⟩)
      (.inl ⟨rfl, by simp [hf, Pc.rank]⟩)
  | served cpuId hcpu hf =>
    have hra : (if p = r.bspLapicId then Pc.starting r.cpus else .count).rank = 7 := by
      split <;> rfl
    have hat : (s.pc p).rank = 6 := by rw [hf]; rfl
    exact h.goto rfl rfl rfl rfl (by omega) (.inl ⟨rfl, by omega⟩)
      (.inr ⟨cpuId, rfl, hcpu, by omega⟩)
  | skipped cpu rest hf =>
    exact h.goto rfl rfl rfl rfl (by simp [hf]) (.inl ⟨rfl, by simp [hf]⟩)
      (.inl ⟨rfl, by simp [hf]⟩)
  | bootstrapped cpu rest hne hf =>
    obtain ⟨hbsp, -, hr⟩ := hc.starting p _ hf
    have hh := hr cpu List.mem_cons_self hne
    have hpne : p ≠ cpu.lapicId := fun heq => hne (heq.symm.trans hbsp)
    have he : (s.goto cpu.lapicId (.entered cpu.processorId)).Tables :=
      h.goto rfl rfl rfl rfl (by simp [hh, Pc.rank]) (.inl ⟨rfl, by simp [hh, Pc.rank]⟩)
        (.inl ⟨rfl, by simp [hh, Pc.rank]⟩)
    have hf := (goto_pc_of_ne (k := .entered cpu.processorId) hpne).trans hf
    exact he.goto rfl rfl rfl rfl (by simp [hf]) (.inl ⟨rfl, by simp [hf]⟩)
      (.inl ⟨rfl, by simp [hf]⟩)
  | finished online hf =>
    have hi : (Pc.idle).rank = 8 := rfl
    exact h.goto rfl rfl rfl rfl (by omega) (.inl ⟨rfl, by omega⟩) (.inl ⟨rfl, by omega⟩)

theorem Threads.goto (h : s.Threads) (hth : t.threads = s.threads) (hid : t.nextId = s.nextId)
    (hcur : t.currentThread = s.currentThread) (hpc : t.pc = (s.goto p k).pc)
    (hk : 5 ≤ k.rank → 5 ≤ (s.pc p).rank) : t.Threads := by
  refine ⟨?_, ?_⟩ <;> simp only [hth, hid, hcur, hpc]
  · refine fun q hq => h.adopted q ?_
    by_cases hqp : q = p
    · rw [hqp, goto_pc_self] at hq
      exact hqp ▸ hk hq
    · rwa [goto_pc_of_ne hqp] at hq
  · exact h.fresh

theorem Threads.allocate (h : s.Threads) (stack : Stack) :
    ({ s with
      nextId := s.nextId + 1
      threads := update s.threads s.nextId (some stack) } : Boot).Threads := by
  refine ⟨fun p hp => ?_, fun id hid => ?_⟩
  · obtain ⟨id, hid, hs⟩ := h.adopted p hp
    have hne : id ≠ s.nextId := by
      rintro rfl
      rw [h.fresh _ (Nat.le_refl _)] at hs
      cases hs
    exact ⟨id, hid, (update_of_ne hne ..).trans hs⟩
  · have hid : s.nextId + 1 ≤ id := hid
    exact (update_of_ne (by omega) ..).trans (h.fresh id (by omega))

theorem Threads.adoptedBy (h : s.Threads) :
    ({ s with
      nextId := s.nextId + 1
      threads := update s.threads s.nextId (some (.adopted p))
      currentThread := update s.currentThread p (some s.nextId) }.goto p .mark).Threads := by
  have ha := h.allocate (.adopted p)
  refine ⟨fun q hq => ?_, ha.fresh⟩
  by_cases hqp : q = p
  · exact ⟨s.nextId, by simp [Boot.goto, hqp], by simp [Boot.goto, hqp]⟩
  · rw [goto_pc_of_ne hqp] at hq
    obtain ⟨id, hid, hs⟩ := ha.adopted q hq
    exact ⟨id, (update_of_ne hqp ..).trans hid, hs⟩

theorem Threads.moves (h : s.Threads) (hc : s.Control r) (hm : Moves r s p t) : t.Threads := by
  cases hm with
  | refused | announced | published | unchecked =>
    exact h.goto rfl rfl rfl rfl fun hk => absurd hk (by decide)
  | adopted hf => exact h.adoptedBy
  | marked _ _ hf | served _ _ hf => exact h.goto rfl rfl rfl rfl fun _ => by rw [hf]; decide
  | skipped cpu rest hf => exact h.goto rfl rfl rfl rfl fun _ => by simp [hf]
  | bootstrapped cpu rest hne hf =>
    obtain ⟨hbsp, -⟩ := hc.starting p _ hf
    have hpne : p ≠ cpu.lapicId := fun heq => hne (heq.symm.trans hbsp)
    have he : (s.goto cpu.lapicId (.entered cpu.processorId)).Threads :=
      h.goto rfl rfl rfl rfl fun hk => absurd hk (by simp [Pc.rank])
    exact he.goto rfl rfl rfl rfl fun _ => by simp [goto_pc_of_ne hpne, hf]
  | finished online hf => exact h.goto rfl rfl rfl rfl fun _ => by omega

/-! ### Whole runs -/

/-- The invariant of bring-up from a response without shared indexes. -/
structure Inv (r : MpResponse) (s : Boot) : Prop where
  control : s.Control r
  tables : s.Tables
  threads : s.Threads

theorem Inv.init (r : MpResponse) : Boot.start.Inv r := by
  refine ⟨⟨?_, ?_, ?_, ?_, ?_, ?_, ?_⟩, ⟨?_, ?_, ?_, ?_, ?_⟩, ?_, ?_⟩
  all_goals simp [Boot.start, Pc.rank]

theorem Inv.step (hr : r.WellFormed) (hu : r.Unshared) {a : Act} (h : s.Inv r)
    (hst : s.step r a = some t) : t.Inv r := by
  have hun := h.control.unique hu hr
  cases a with
  | run p =>
    have hm := moves_of_run hr h.control h.tables hun hst
    have hc := h.control.moves hr hm
    exact ⟨hc, h.tables.moves h.control hun (hc.unique hu hr) hm,
      h.threads.moves h.control hm⟩
  | spawn =>
    obtain ⟨⟨id, s'⟩, ha, rfl⟩ := Option.map_eq_some_iff.mp hst
    unfold Boot.allocate at ha
    split_ifs at ha
    cases ha
    exact ⟨{ h.control with }, { h.tables with }, h.threads.allocate .kernel⟩

theorem Inv.isPrivate (hr : r.WellFormed) (hu : r.Unshared) (h : s.Inv r) : s.Private := by
  have hun := h.control.unique hu hr
  constructor
  · exact h.control.named
  · exact fun p q i hp hq => (hun p q i i hp hq).1 rfl
  · exact fun p i hp q hq => (hun q p i i (h.tables.blocks i q hq) hp).1 rfl
  · exact h.tables.registered
  · exact fun p i hp => (h.tables.apic _ i).mpr ⟨p, hp, rfl⟩
  · intro a a' i ha ha'
    obtain ⟨p, hp, rfl⟩ := (h.tables.apic a i).mp ha
    obtain ⟨q, hq, rfl⟩ := (h.tables.apic a' i).mp ha'
    rw [(hun p q i i hp hq).1 rfl]
  · exact fun p i hp => (h.tables.idle i).trans (hun.own hp)
  · exact fun p i hp => (h.tables.online i).trans (hun.own hp)
  · exact h.threads.adopted

/-! ### Bring-up of any two processors -/

/-- The loop of `start_all` lets every application processor of the response go. -/
theorem exists_run_startAll (rest : List MpInfo) (hn : (rest.map MpInfo.lapicId).Nodup)
    (hpc : s.pc r.bspLapicId = .starting rest) :
    ∃ acts t, Run (Step r) s acts t ∧ t.cpuId = s.cpuId ∧
      (∀ cpu ∈ rest, cpu.lapicId ≠ r.bspLapicId →
        t.pc cpu.lapicId = .entered cpu.processorId) ∧
      ∀ p, p ≠ r.bspLapicId → (∀ cpu ∈ rest, cpu.lapicId ≠ p) → t.pc p = s.pc p := by
  induction rest generalizing s with
  | nil => exact ⟨[], s, .nil s, rfl, by simp, fun _ _ _ => rfl⟩
  | cons cpu rest ih =>
    rw [List.map_cons, List.nodup_cons] at hn
    obtain ⟨s₁, hs, hpc₁, hcpu₁, he₁, ho₁⟩ : ∃ s₁, s.step r (.run r.bspLapicId) = some s₁ ∧
        s₁.pc r.bspLapicId = .starting rest ∧ s₁.cpuId = s.cpuId ∧
        (cpu.lapicId ≠ r.bspLapicId → s₁.pc cpu.lapicId = .entered cpu.processorId) ∧
        ∀ p, p ≠ r.bspLapicId → p ≠ cpu.lapicId → s₁.pc p = s.pc p := by
      refine ⟨s.startNext r r.bspLapicId (cpu :: rest), by simp [Boot.step, Boot.run, hpc], ?_⟩
      simp only [startNext]
      split_ifs with hbsp
      · exact ⟨goto_pc_self .., rfl, absurd hbsp, fun p hne _ => goto_pc_of_ne hne⟩
      · exact ⟨goto_pc_self .., rfl, fun hne => (goto_pc_of_ne hne).trans (goto_pc_self ..),
          fun p hne hp => (goto_pc_of_ne hne).trans (goto_pc_of_ne hp)⟩
    obtain ⟨acts, t, hrun, hcpu, he, hsa⟩ := ih hn.2 hpc₁
    refine ⟨_, t, .cons hs hrun, hcpu.trans hcpu₁, fun cpu' hcpu' hne => ?_, fun p hne hp => ?_⟩
    · rcases List.mem_cons.mp hcpu' with rfl | hcpu'
      · rw [hsa _ hne fun cpu hcpu heq => hn.1 (heq ▸ List.mem_map_of_mem hcpu), he₁ hne]
      · exact he cpu' hcpu' hne
    · rw [hsa p hne fun cpu' hcpu' => hp cpu' (List.mem_cons_of_mem _ hcpu'),
        ho₁ p hne (hp cpu List.mem_cons_self).symm]

/-- The boot path of the bootstrap processor, to the end of `start_all`. -/
theorem exists_run_bootstrap (hr : r.WellFormed) (hbsp : initialApicId r.bspLapicId < maxCpus) :
    ∃ acts t, Run (Step r) Boot.start acts t ∧ t.cpuId r.bspLapicId = some 0 ∧
      ∀ cpu ∈ r.cpus, cpu.lapicId ≠ r.bspLapicId →
        t.pc cpu.lapicId = .entered cpu.processorId := by
  obtain ⟨s, hex, hcpu, hpc⟩ : ∃ s,
      exec (fun s a => s.step r a) Boot.start (List.replicate 6 (.run r.bspLapicId)) = some s ∧
      s.cpuId r.bspLapicId = some 0 ∧ s.pc r.bspLapicId = .starting r.cpus := by
    have hz : 0 < maxCpus := by decide
    simp [exec, Boot.step, Boot.run, Boot.start, announce, hbsp, publish, hz, checkIdle, adopt,
      allocate, markOnline, Boot.goto]
  have hrun : Run (Step r) Boot.start _ s := run_of_exec hex
  obtain ⟨acts, t, hrun', hcpu', he, -⟩ := exists_run_startAll r.cpus hr.lapicIds hpc
  exact ⟨_, t, hrun.append hrun', hcpu' ▸ hcpu, he⟩

/-- An application processor at its entry point gets the index it was passed. -/
theorem run_entered {arg : Nat} (hpc : s.pc p = .entered arg) (harg : arg < maxCpus)
    (ha : initialApicId p < maxCpus) :
    ∃ t, Run (Step r) s [.run p] t ∧ t.cpuId = update s.cpuId p (some arg) ∧
      ∀ q, q ≠ p → t.pc q = s.pc q := by
  have hsm : arg % 2 ^ 32 = arg := Nat.mod_eq_of_lt (Nat.lt_trans harg (by decide))
  have hs : s.step r (.run p) = some (s.announce p arg) := by
    simp only [Boot.step, Boot.run, hpc, hsm]
  rw [announce, if_pos ha] at hs
  exact ⟨_, .cons hs (.nil _), rfl, fun q hne => goto_pc_of_ne hne⟩

/-- A state in which two processors have their indexes, whichever the second is. -/
theorem exists_both_named (hr : r.WellFormed) (hbsp : initialApicId r.bspLapicId < maxCpus)
    (hcpu : cpu ∈ r.cpus) (hne : cpu.lapicId ≠ r.bspLapicId)
    (ha : initialApicId cpu.lapicId < maxCpus) (hp : r.Labels p i)
    (hpa : initialApicId p < maxCpus) (hpne : p ≠ cpu.lapicId) :
    ∃ acts t, Run (Step r) Boot.start acts t ∧ t.cpuId p = some i ∧
      t.cpuId cpu.lapicId = some cpu.processorId := by
  obtain ⟨acts, s, hrun, hz, he⟩ := exists_run_bootstrap hr hbsp
  obtain ⟨t, hrun', hc, hpc⟩ :=
    run_entered (r := r) (he cpu hcpu hne) (hr.small cpu hcpu) ha
  rcases hp with ⟨rfl, rfl⟩ | ⟨cpu', hcpu', rfl, hne', rfl⟩
  · refine ⟨_, t, hrun.append hrun', ?_, ?_⟩
    · rw [hc, update_of_ne hpne, hz]
    · rw [hc, update_self]
  · have hpc' := (hpc _ hpne).trans (he cpu' hcpu' hne')
    obtain ⟨t', hrun'', hc', -⟩ := run_entered hpc' (hr.small cpu' hcpu') hpa
    refine ⟨_, t', (hrun.append hrun').append hrun'', ?_, ?_⟩
    · rw [hc', update_self]
    · rw [hc', update_of_ne hpne.symm, hc, update_self]

/-- In every state of every bring-up each index belongs to one processor, if and only if
the response makes no two processors share one. -/
theorem indexes_private_iff (hr : r.WellFormed) :
    (∀ acts s, Run (Step r) Boot.start acts s → s.Private) ↔ r.Unshared := by
  constructor
  · intro hprivate hbsp
    have hdistinct : ∀ cpu ∈ r.cpus, initialApicId cpu.lapicId < maxCpus →
        cpu.lapicId ≠ r.bspLapicId → ∀ p i, r.Labels p i → initialApicId p < maxCpus →
        p ≠ cpu.lapicId → i ≠ cpu.processorId ∧ initialApicId p ≠ initialApicId cpu.lapicId := by
      intro cpu hcpu hapic hne p i hp hpa hpne
      obtain ⟨acts, s, hrun, hpi, hci⟩ := exists_both_named hr hbsp hcpu hne hapic hp hpa hpne
      have h := hprivate acts s hrun
      have hindex : i ≠ cpu.processorId :=
        fun heq => hpne (h.index p cpu.lapicId i hpi (heq ▸ hci))
      refine ⟨hindex, fun heq => hindex ?_⟩
      have hown := h.apic p i hpi
      rw [heq, h.apic _ _ hci] at hown
      exact (Option.some.inj hown).symm
    constructor
    · intro cpu hcpu hapic hne
      exact (hdistinct cpu hcpu hapic hne _ 0 (.inl ⟨rfl, rfl⟩) hbsp hne.symm).1.symm
    · intro cpu hcpu cpu' hcpu' hapic heq
      by_contra hcpus
      have hlapic : cpu.lapicId ≠ cpu'.lapicId := fun h => hcpus (hr.eq_of_lapicId hcpu hcpu' h)
      -- One of the two is an application processor.
      by_cases hne : cpu'.lapicId = r.bspLapicId
      · have hne' : cpu.lapicId ≠ r.bspLapicId := fun h => hlapic (h.trans hne.symm)
        exact (hdistinct cpu hcpu hapic hne' _ 0 (.inl ⟨hne, rfl⟩) (heq ▸ hapic) hlapic.symm).2
          heq.symm
      · obtain ⟨i, hi⟩ : ∃ i, r.Labels cpu.lapicId i := by
          by_cases hbsp' : cpu.lapicId = r.bspLapicId
          · exact ⟨0, .inl ⟨hbsp', rfl⟩⟩
          · exact ⟨_, .inr ⟨cpu, hcpu, rfl, hbsp', rfl⟩⟩
        exact (hdistinct cpu' hcpu' (heq ▸ hapic) hne _ i hi hapic hlapic).2 heq
  · intro hu acts s hrun
    have hinv : s.Inv r := hrun.invariant (fun _ _ _ h hstep => h.step hr hu hstep) (Inv.init r)
    exact hinv.isPrivate hr hu

/-- The firmware counts from 1 and the bootstrap processor is its third. -/
theorem indexes_private_counted_from_one :
    (∀ acts s, Run (Step ⟨4, [⟨1, 0⟩, ⟨2, 2⟩, ⟨3, 4⟩]⟩) Boot.start acts s → s.Private) ∧
      ∃ s, Run (Step ⟨4, [⟨1, 0⟩, ⟨2, 2⟩, ⟨3, 4⟩]⟩) Boot.start
        (List.replicate 10 (.run 4) ++ List.replicate 7 (.run 0) ++ List.replicate 7 (.run 2)) s ∧
        [s.pc 0, s.pc 2, s.pc 4] = [.idle, .idle, .idle] ∧
        [s.cpuId 0, s.cpuId 2, s.cpuId 4] = [some 1, some 2, some 0] := by
  constructor
  · refine (indexes_private_iff ⟨by decide, by decide, by decide, by decide⟩).mpr ?_
    unfold MpResponse.Unshared
    decide
  · exact exists_run_of_exec (by decide +kernel) fun s _ hfacts => hfacts

/-- The firmware counts from 0, and the bootstrap processor is its second. The first one
registers its block over the other's and runs without a thread of its own. -/
theorem index_shared_with_bootstrap :
    MpResponse.WellFormed ⟨0, [⟨1, 0⟩, ⟨0, 1⟩]⟩ ∧
      ∃ s, Run (Step ⟨0, [⟨1, 0⟩, ⟨0, 1⟩]⟩) Boot.start
        (List.replicate 9 (.run 0) ++ List.replicate 5 (.run 1)) s ∧
        s.pc 0 = .idle ∧ s.pc 1 = .idle ∧ s.cpuId 0 = some 0 ∧ s.cpuId 1 = some 0 ∧
        s.blocks 0 = some 1 ∧ s.apicToCpu 0 = some 0 ∧ s.apicToCpu 1 = some 0 ∧
        s.currentThread 1 = none ∧ ¬ s.Private := by
  refine ⟨⟨by decide, by decide, by decide, by decide⟩, ?_⟩
  refine exists_run_of_exec (p := fun s => s.pc 0 = .idle ∧ s.pc 1 = .idle ∧
      s.cpuId 0 = some 0 ∧ s.cpuId 1 = some 0 ∧ s.blocks 0 = some 1 ∧ s.apicToCpu 0 = some 0 ∧
      s.apicToCpu 1 = some 0 ∧ s.currentThread 1 = none) (by decide +kernel) fun s _ hfacts => ?_
  obtain ⟨hpc, hpc', hcpu, hcpu', hblocks, hapic, hapic', hthread⟩ := hfacts
  refine ⟨hpc, hpc', hcpu, hcpu', hblocks, hapic, hapic', hthread, fun h => ?_⟩
  cases h.index 0 1 0 hcpu hcpu'

end Boot

end Qunix.Smp
