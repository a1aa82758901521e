/-
What each move of the machine does, and that it never leaves the scheduler
machine: a move changes the scheduler's state by one of that machine's steps or
not at all (`Machine.step_st`), so everything proved about those states holds
here.
-/

import Qunix.Hal.Entry

namespace Qunix.Hal.Machine

open Function Qunix.Sched

variable {n : Nat} {m m' : Machine n} {c d : Fin n} {me : ThreadId}

/-! ### Instructions -/

variable {f : Machine n → Machine n} {a : Move n}

theorem andThen_of_live (h : m.stopped = false) :
    m.andThen f = f m := by
  rw [andThen, h]
  rfl

theorem andThen_of_stopped (h : m.stopped = true) : m.andThen f = m := by
  rw [andThen, h]
  rfl

theorem stopped_touch_of_none (h : m.gsBase c = none) : (m.touch c).stopped = true := by
  rw [touch, h]
  rfl

/-- What follows an access is done with the base it used, or not at all. -/
theorem touch_andThen (m : Machine n) (c : Fin n) (f : Machine n → Machine n) :
    (m.gsBase c = none ∧ (m.touch c).andThen f = m.touch c) ∨
      ∃ d, m.gsBase c = some d ∧
        (m.touch c).andThen f = f { m with log := .gs c (some d) :: m.log, stopped := false } := by
  cases hgs : m.gsBase c with
  | none => exact .inl ⟨rfl, andThen_of_stopped (stopped_touch_of_none hgs)⟩
  | some d =>
    simp [touch, andThen, hgs]

/-- What code did that found the CPU's own base. -/
theorem found_own {base : Option (Fin n)} {p : Prop} {q : Fin n → Prop}
    (h : (base = none ∧ p) ∨ ∃ d, base = some d ∧ q d) (hb : base = some c) : q c := by
  obtain ⟨hn, -⟩ | ⟨d, hd, hq⟩ := h
  · cases hb.symm.trans hn
  · exact Option.mem_unique hb hd ▸ hq

/-- The stub's first `swapgs` brings in the kernel's base, and both accesses use it. -/
theorem syscallEntry_of_some (h : m.kernelGsBase c = some d) :
    m.syscallEntry c me = { m with
      gsBase := update m.gsBase c (some d)
      kernelGsBase := update m.kernelGsBase c (m.gsBase c)
      userRsp := update m.userRsp d (m.rsp me)
      log := .gs c (some d) :: .gs c (some d) :: .kernelGs c (some d) :: m.log
      stopped := false } := by
  simp [syscallEntry, noteKernelGs, swapgs, storeUserRsp, touch, andThen, h]

theorem syscallEntry_of_none (h : m.kernelGsBase c = none) :
    m.syscallEntry c me = { m with
      gsBase := update m.gsBase c none
      kernelGsBase := update m.kernelGsBase c (m.gsBase c)
      log := .gs c none :: .kernelGs c none :: m.log
      stopped := true } := by
  simp [syscallEntry, noteKernelGs, swapgs, storeUserRsp, touch, andThen, h]

theorem syscallExit_of_some (h : m.gsBase c = some d) :
    m.syscallExit c me = { m with
      rsp := update m.rsp me (m.userRsp d)
      gsBase := update m.gsBase c (m.kernelGsBase c)
      kernelGsBase := update m.kernelGsBase c (some d)
      log := .gs c (some d) :: m.log
      stopped := false } := by
  simp [syscallExit, swapgs, loadUserRsp, touch, andThen, h]

theorem syscallExit_of_none (h : m.gsBase c = none) : m.syscallExit c me = m.touch c := by
  simp [syscallExit, loadUserRsp, touch, andThen, h]

/-! ### Moves -/

theorem sched_spec {a : Act n} (h : m.sched a = some m') :
    viaEntry a = false ∧ (∀ c, a.cpu = some c → m.handling c = none) ∧
      (∀ c, gsCpu a = some c → m.inUser c = false) ∧ ∃ t, m.st.step a = some t ∧
      ((gsCpu a = none ∧ m' = { m with st := t }) ∨
        (∃ c, gsCpu a = some c ∧ m.gsBase c = none ∧ m' = m.touch c) ∨
        ∃ c d, gsCpu a = some c ∧ m.gsBase c = some d ∧
          m' = { m with st := t, log := .gs c (some d) :: m.log, stopped := false }) := by
  unfold sched at h
  split_ifs at h with hg
  simp only [Bool.and_eq_true, Bool.not_eq_true', Option.all_eq_true] at hg
  obtain ⟨⟨hvia, hi⟩, hu⟩ := hg
  obtain ⟨t, ht, rfl⟩ := Option.map_eq_some_iff.mp h
  refine ⟨hvia, fun c hc => Option.isNone_iff_eq_none.mp (hi c hc), hu, t, ht, ?_⟩
  cases hgs : gsCpu a with
  | none => exact .inl ⟨rfl, rfl⟩
  | some c =>
    rcases m.touch_andThen c fun m => { m with st := t } with ⟨hb, heq⟩ | ⟨d, hb, heq⟩
    · exact .inr (.inl ⟨c, rfl, hb, heq⟩)
    · exact .inr (.inr ⟨c, d, rfl, hb, heq⟩)

theorem clearGs_spec (h : m.clearGs c = some m') :
    m.inUser c = true ∧ m' = { m with gsBase := update m.gsBase c none } := by
  unfold clearGs at h
  split_ifs at h with hu
  exact ⟨hu, (Option.some.inj h).symm⟩

theorem setRsp_spec {value : Nat} (h : m.setRsp c value = some m') :
    ∃ me, m.inUser c = true ∧ m.st.running c = some me ∧
      m' = { m with rsp := update m.rsp me value } := by
  unfold setRsp at h
  split_ifs at h with hu
  obtain ⟨me, hme, rfl⟩ := Option.map_eq_some_iff.mp h
  exact ⟨me, hu, hme, rfl⟩

theorem syscall_spec (h : m.syscall c = some m') :
    ∃ me t, m.handling c = none ∧ m.st.running c = some me ∧ m.st.runLocal c .syscall = some t ∧
      ((m.kernelGsBase c = none ∧ m' = m.syscallEntry c me) ∨
        ∃ d, m.kernelGsBase c = some d ∧ m' = { m with
          st := t
          gsBase := update m.gsBase c (some d)
          kernelGsBase := update m.kernelGsBase c (m.gsBase c)
          userRsp := update m.userRsp d (m.rsp me)
          entry := update m.entry me (some (m.rsp me, c))
          log := .gs c (some d) :: .gs c (some d) :: .kernelGs c (some d) :: m.log
          stopped := false }) := by
  unfold syscall at h
  split_ifs at h with hi
  obtain ⟨me, hme, h⟩ := Option.bind_eq_some_iff.mp h
  obtain ⟨t, ht, rfl⟩ := Option.map_eq_some_iff.mp h
  refine ⟨me, t, hi, hme, ht, ?_⟩
  cases hk : m.kernelGsBase c with
  | none =>
    refine .inl ⟨rfl, andThen_of_stopped ?_⟩
    rw [syscallEntry_of_none hk]
  | some d =>
    refine .inr ⟨d, rfl, ?_⟩
    rw [syscallEntry_of_some hk, andThen_of_live rfl]

theorem sysret_spec (h : m.sysret c = some m') :
    ∃ me t, m.handling c = none ∧ m.st.running c = some me ∧ m.st.runLocal c .sysret = some t ∧
      ((m.gsBase c = none ∧ m' = m.touch c) ∨
        ∃ d, m.gsBase c = some d ∧ m' = { m with
          st := t
          rsp := update m.rsp me (m.userRsp d)
          gsBase := update m.gsBase c (m.kernelGsBase c)
          kernelGsBase := update m.kernelGsBase c (some d)
          log := .sysret me ((m.entry me).elim 0 Prod.fst) (m.userRsp d) ::
            .gs c (some d) :: m.log
          stopped := false }) := by
  unfold sysret at h
  split_ifs at h with hi
  obtain ⟨me, hme, h⟩ := Option.bind_eq_some_iff.mp h
  obtain ⟨t, ht, rfl⟩ := Option.map_eq_some_iff.mp h
  refine ⟨me, t, hi, hme, ht, ?_⟩
  cases hgs : m.gsBase c with
  | none =>
    refine .inl ⟨rfl, ?_⟩
    rw [syscallExit_of_none hgs]
    exact andThen_of_stopped (stopped_touch_of_none hgs)
  | some d =>
    simp [syscallExit_of_some hgs, andThen]

theorem fault_spec (h : m.fault c = some m') :
    ∃ t, m.handling c = none ∧ m.st.runLocal c .fault = some t ∧
      ((m.kernelGsBase c = none ∧ m' = (m.restoreGsBase c).touch c) ∨
        ∃ d, m.kernelGsBase c = some d ∧ m' = { m with
          st := t
          gsBase := update m.gsBase c (some d)
          log := .gs c (some d) :: .kernelGs c (some d) :: m.log
          stopped := false }) := by
  unfold fault at h
  split_ifs at h with hi
  obtain ⟨t, ht, rfl⟩ := Option.map_eq_some_iff.mp h
  have hgs : (m.restoreGsBase c).gsBase c = m.kernelGsBase c := update_self ..
  refine ⟨t, hi, ht, ?_⟩
  rcases (m.restoreGsBase c).touch_andThen c fun m => { m with st := t } with
    ⟨hk, heq⟩ | ⟨d, hk, heq⟩
  · exact .inl ⟨hgs ▸ hk, heq⟩
  · refine .inr ⟨d, hgs ▸ hk, heq.trans ?_⟩
    simp [restoreGsBase, noteKernelGs, hgs ▸ hk]

theorem interrupt_spec {handler : Handler} (h : m.interrupt c handler = some m') :
    ∃ t, m.handling c = none ∧ m.st.runLocal c .interrupt = some t ∧ m' = { m with
      st := t
      gsBase := update m.gsBase c (m.kernelGsBase c)
      handling := update m.handling c (some handler)
      log := .kernelGs c (m.kernelGsBase c) :: m.log } := by
  unfold interrupt at h
  split_ifs at h with hi
  obtain ⟨t, ht, rfl⟩ := Option.map_eq_some_iff.mp h
  exact ⟨t, hi, ht, rfl⟩

theorem handlerEnd_spec (h : m.handlerEnd c = some m') :
    (∃ handler, m.handling c = some handler) ∧
      m' = { m with handling := update m.handling c none } := by
  unfold handlerEnd at h
  split at h
  · rename_i handler hh
    split_ifs at h
    exact ⟨⟨handler, hh⟩, (Option.some.inj h).symm⟩
  · cases h

theorem tick_spec (h : m.tick c = some m') :
    ∃ t, m.handling c = some .timer ∧ m.st.enter c .tick = some t ∧
      ((m.gsBase c = none ∧ m' = m.touch c) ∨
        ∃ d, m.gsBase c = some d ∧ m' = { m with
          st := t
          handling := update m.handling c none
          log := .gs c (some d) :: m.log
          stopped := false }) := by
  unfold tick at h
  split_ifs at h with hh
  obtain ⟨t, ht, rfl⟩ := Option.map_eq_some_iff.mp h
  exact ⟨t, hh, ht, m.touch_andThen c _⟩

theorem wakeIpi_spec (h : m.wakeIpi c = some m') :
    ∃ t, m.handling c = none ∧ m.st.runLocal c .interrupt = some t ∧ m' = { m with st := t } := by
  unfold wakeIpi at h
  split_ifs at h with hi
  obtain ⟨t, ht, rfl⟩ := Option.map_eq_some_iff.mp h
  exact ⟨t, hi, ht, rfl⟩

theorem step_spec (h : m.step a = some m') :
    m.stopped = false ∧ m.move a = some m' := by
  unfold step at h
  split_ifs at h with hl
  exact ⟨Bool.eq_false_iff.mpr hl, h⟩

theorem step_st (h : m.step a = some m') :
    m'.st = m.st ∨ ∃ act, m.st.step act = some m'.st := by
  obtain ⟨-, h⟩ := step_spec h
  cases a with
  | sched a =>
    obtain ⟨-, -, -, t, ht, ⟨-, rfl⟩ | ⟨c, -, -, rfl⟩ | ⟨c, d, -, -, rfl⟩⟩ := sched_spec h
    · exact .inr ⟨a, ht⟩
    · exact .inl rfl
    · exact .inr ⟨a, ht⟩
  | clearGs c =>
    obtain ⟨-, rfl⟩ := clearGs_spec h
    exact .inl rfl
  | setRsp c value =>
    obtain ⟨me, -, -, rfl⟩ := setRsp_spec h
    exact .inl rfl
  | syscall c =>
    obtain ⟨me, t, -, -, ht, ⟨hk, rfl⟩ | ⟨d, -, rfl⟩⟩ := syscall_spec h
    · rw [syscallEntry_of_none hk]
      exact .inl rfl
    · exact .inr ⟨.run c .syscall, ht⟩
  | sysret c =>
    obtain ⟨me, t, -, -, ht, ⟨-, rfl⟩ | ⟨d, -, rfl⟩⟩ := sysret_spec h
    · exact .inl rfl
    · exact .inr ⟨.run c .sysret, ht⟩
  | fault c =>
    obtain ⟨t, -, ht, ⟨-, rfl⟩ | ⟨d, -, rfl⟩⟩ := fault_spec h
    · exact .inl rfl
    · exact .inr ⟨.run c .fault, ht⟩
  | interrupt c handler =>
    obtain ⟨t, -, ht, rfl⟩ := interrupt_spec h
    exact .inr ⟨.run c .interrupt, ht⟩
  | handlerEnd c =>
    obtain ⟨-, rfl⟩ := handlerEnd_spec h
    exact .inl rfl
  | tick c =>
    obtain ⟨t, -, ht, ⟨-, rfl⟩ | ⟨d, -, rfl⟩⟩ := tick_spec h
    · exact .inl rfl
    · exact .inr ⟨.enter c .tick, ht⟩
  | wakeIpi c =>
    obtain ⟨t, -, ht, rfl⟩ := wakeIpi_spec h
    exact .inr ⟨.run c .interrupt, ht⟩

/-- What every step of the scheduler machine preserves, every move preserves. -/
theorem invariant_step {p : St n → Prop} (hp : p m.st)
    (hs : ∀ s a t, p s → s.step a = some t → p t) (h : m.step a = some m') : p m'.st := by
  rcases step_st h with heq | ⟨act, ht⟩
  · rw [heq]
    exact hp
  · exact hs _ _ _ hp ht

theorem exclusive_step (hex : Exclusive m.st) (h : m.step a = some m') :
    Exclusive m'.st := invariant_step hex (fun _ _ _ hex ht => hex.step ht) h

end Qunix.Hal.Machine
