/-
Which invalidations a shootdown delivers.

A thread that is resumed on another CPU after its local flush excludes the wrong
CPU from the shootdown (`unmap_skips_cpu`). A `service_pending` that is resumed
on another CPU flushes there and acknowledges for the first one, and one that is
overtaken by the next round acknowledges that round for the last one's target.

Without these, an acknowledgement is worth what it says. While a call waits, a
CPU that has not executed its invalidation has its bit in `PENDING`, and every
`service_pending` for that CPU has either still to load `TARGET` or loaded this
call's (`Owes`). So `PENDING` is empty only when every CPU that was online at
the clearing has executed an invalidation (`unmap_delivers`).
-/

import Qunix.Lib.Run
import Qunix.Tlb.Shootdown

namespace Qunix.Tlb

open Function Qunix.Lib

variable {m : Nat}

/-! ### Orderly runs -/

/-- Between its read of the CPU number and its invalidation. -/
def Serve.unflushed : Serve → Bool
  | .read _ => true
  | .owing _ => true
  | .loaded _ _ => true
  | _ => false

/-- Between the local flush and the read of the CPU number. -/
def Stage.pinned : Stage → Bool
  | .flushed => true
  | .counted _ => true
  | _ => false

/-- Past its load of `TARGET`, for a CPU of the mask. -/
def Serve.late (mask : BitVec 64) : Serve → Bool
  | .loaded cpu _ => has mask cpu
  | .flushed cpu => has mask cpu
  | _ => false

def Stage.storing : Stage → Option (BitVec 64)
  | .storePending remote => some remote
  | _ => none

namespace Sys

/-- The thread counts on being on one CPU. -/
def pinned (s : Sys m) (t : Fin m) : Bool :=
  (s.serve t).any Serve.unflushed || (s.call t).any fun k => k.stage.pinned

/-- Some `service_pending` for a CPU of the mask will acknowledge without looking
at `TARGET` again. -/
def hasLate (s : Sys m) (mask : BitVec 64) : Bool :=
  decide (∃ t, (s.serve t).any (Serve.late mask) = true) ||
    decide (∃ c, (s.nested c).any (Serve.late mask) = true)

/-- A thread that counts on its CPU is resumed there, and `PENDING` is stored
only when no `service_pending` for a CPU of the new mask is about to
acknowledge. -/
def orderly (s : Sys m) : Act m → Bool
  | .dispatch t c _ => !s.pinned t || c == s.home t
  | .advance c _ =>
    ((s.current c).bind fun t => (s.call t).bind fun k => k.stage.storing).all fun remote =>
      !s.hasLate remote
  | _ => true

variable {s : Sys m} {c : Cpu} {t : Fin m}

theorem current_eq_some : s.current c = some t ↔ s.nested c = none ∧ s.running c = some t := by
  unfold current
  split_ifs with h
  · simp [Option.isNone_iff_eq_none.mp h]
  · simp only [false_iff]
    intro hn
    simp [hn] at h

end Sys

/-! ### Where the parties stand -/

/-- The CPU whose number was read is the one the call is on. -/
def Serve.On (c : Cpu) : Serve → Prop
  | .read cpu => cpu = c
  | .owing cpu => cpu = c
  | .loaded cpu _ => cpu = c
  | _ => True

variable {sv : Serve} {k : Call} {target : Target} {s s' : Sys m} {c : Cpu} {r : Option Serve}

theorem Serve.On.of_not_unflushed (h : sv.unflushed = false) (c : Cpu) : sv.On c := by
  cases sv with
  | top | flushed => trivial
  | _ => cases h

structure Placed (s : Sys m) : Prop where
  home : ∀ c t, s.running c = some t → s.home t = c
  thread : ∀ t sv, s.serve t = some sv → sv.On (s.home t)
  nested : ∀ c sv, s.nested c = some sv → sv.On c

/-- A `service_pending` that will not acknowledge `c` without the target. -/
def Serve.Fresh (target : Target) (c : Cpu) : Serve → Prop
  | .loaded cpu target' => cpu = c → target' = target
  | .flushed cpu => cpu ≠ c
  | _ => True

def Sys.Active (s : Sys m) (sv : Serve) : Prop :=
  (∃ t, s.serve t = some sv) ∨ ∃ c, s.nested c = some sv

/-- The CPU's acknowledgement is outstanding, and will not come without an
invalidation of the target. -/
structure Sys.Owes (s : Sys m) (target : Target) (c : Cpu) : Prop where
  pending : has s.pending c = true
  fresh : ∀ sv, s.Active sv → sv.Fresh target c

/-- Holding `IN_PROGRESS`. -/
def Stage.holds : Stage → Bool
  | .storeTarget _ => true
  | .storePending _ => true
  | .sendIpi => true
  | .wait => true
  | .release => true
  | _ => false

/-- `TARGET` is the call's own. -/
def Stage.targeted : Stage → Bool
  | .storePending _ => true
  | .sendIpi => true
  | .wait => true
  | _ => false

/-- `PENDING` is the call's own. -/
def Stage.published : Stage → Bool
  | .sendIpi => true
  | .wait => true
  | _ => false

/-- What a call knows at each of its stages. -/
def Call.Ok (k : Call) (s : Sys m) (home : Cpu) : Prop :=
  match k.stage with
  | .cleared => True
  | .flushed => k.covered home = true
  | .counted online =>
    k.covered home = true ∧ ∀ c, has k.online c = true → has online c = true
  | .acquire remote | .storeTarget remote =>
    ∀ c, has k.online c = true → k.covered c = true ∨ has remote c = true
  | .storePending remote =>
    s.target = k.target ∧ ∀ c, has k.online c = true → k.covered c = true ∨ has remote c = true
  | .sendIpi | .wait =>
    s.target = k.target ∧ ∀ c, has k.online c = true → k.covered c = true ∨ s.Owes k.target c
  | .release | .done => ∀ c, has k.online c = true → k.covered c = true

structure CallsOk (s : Sys m) : Prop where
  online : ∀ t k, s.call t = some k → ∀ c, has k.online c = true → has s.online c = true
  holder : ∀ t u k l, s.call t = some k → s.call u = some l → k.stage.holds = true →
    l.stage.holds = true → t = u
  locked : ∀ t k, s.call t = some k → k.stage.holds = true → s.inProgress = true
  ok : ∀ t k, s.call t = some k → k.Ok s (s.home t)

/-! ### Calls that only gain invalidations -/

structure Call.Grows (k k' : Call) : Prop where
  target : k'.target = k.target
  stage : k'.stage = k.stage
  online : k'.online = k.online
  covered : ∀ c, k.covered c = true → k'.covered c = true

theorem Call.Grows.refl (k : Call) : k.Grows k := ⟨rfl, rfl, rfl, fun _ h => h⟩

theorem Call.grows_cover (k : Call) (c : Cpu) (target : Target) : k.Grows (k.cover c target) := by
  refine ⟨rfl, rfl, rfl, fun d hd => ?_⟩
  simp only [cover]
  split
  · by_cases hdc : d = c
    · rw [hdc, update_self]
    · rwa [update_of_ne hdc]
  · exact hd

theorem Call.covered_cover (h : target.covers k.target = true) (c : Cpu) :
    (k.cover c target).covered c = true := by
  simp [cover, h]

theorem Call.Ok.frame {k' : Call} {home home' : Cpu} (h : k.Ok s home) (hk : k.Grows k')
    (hhome : k.stage.pinned = true → home' = home)
    (htarget : k.stage.targeted = true → s'.target = s.target)
    (howes : k.stage.published = true → s.target = k.target → ∀ c, s.Owes k.target c →
      k'.covered c = true ∨ s'.Owes k.target c) :
    k'.Ok s' home' := by
  obtain ⟨target', stage', online', covered'⟩ := k'
  obtain ⟨rfl, rfl, rfl, hcov⟩ := hk
  unfold Call.Ok at h
  cases hst : k.stage with
  | cleared => trivial
  | flushed =>
    simp only [hst] at h
    rw [hhome (by rw [hst]; rfl)]
    exact hcov _ h
  | counted online =>
    simp only [hst] at h
    rw [hhome (by rw [hst]; rfl)]
    exact ⟨hcov _ h.1, h.2⟩
  | acquire remote | storeTarget remote =>
    simp only [hst] at h
    exact fun c hc => (h c hc).imp_left (hcov c)
  | storePending remote =>
    simp only [hst] at h ⊢
    exact ⟨(htarget (by rw [hst]; rfl)).trans h.1, fun c hc => (h.2 c hc).imp_left (hcov c)⟩
  | sendIpi | wait =>
    simp only [hst] at h ⊢
    refine ⟨(htarget (by rw [hst]; rfl)).trans h.1, fun c hc => ?_⟩
    rcases h.2 c hc with hc | howe
    · exact .inl (hcov c hc)
    · exact howes (by rw [hst]; rfl) h.1 c howe
  | release | done =>
    simp only [hst] at h ⊢
    exact fun c hc => hcov c (h c hc)

theorem Sys.Owes.mono (h : s.Owes target c)
    (hpending : has s.pending c = true → has s'.pending c = true)
    (hactive : ∀ sv, s'.Active sv → s.Active sv ∨ sv.Fresh target c) : s'.Owes target c where
  pending := hpending h.pending
  fresh := fun sv hsv => (hactive sv hsv).elim (h.fresh sv) id

/-- Only a `service_pending` that has just flushed for `d` is about to acknowledge it. -/
theorem Sys.fresh_serviceStep {d : Cpu} {sv' : Serve} (h : (s.serviceStep c sv).2 = some sv')
    (hd : ∀ target, sv ≠ .loaded d target) : sv'.Fresh s.target d := by
  cases sv with
  | top =>
    cases h
    trivial
  | read cpu =>
    simp only [serviceStep] at h
    split_ifs at h
    cases h
    trivial
  | owing cpu =>
    cases h
    exact fun _ => rfl
  | loaded cpu target =>
    cases h
    rintro rfl
    exact hd target rfl
  | flushed cpu => cases h

namespace Stage

variable {stage : Stage}

theorem holds_of_targeted (h : stage.targeted = true) : stage.holds = true := by
  cases stage with
  | storePending | sendIpi | wait => rfl
  | _ => cases h

theorem holds_of_published (h : stage.published = true) : stage.holds = true := by
  cases stage with
  | sendIpi | wait => rfl
  | _ => cases h

end Stage

namespace CallsOk

variable {s s' : Sys m} {t : Fin m} {k : Call} {stage : Stage}

theorem boot : CallsOk (Sys.boot m) where
  online := fun t k hk => by cases hk
  holder := fun t u k l hk => by cases hk
  locked := fun t k hk => by cases hk
  ok := fun t k hk => by cases hk

theorem frame (h : CallsOk s)
    (hcalls : ∀ t k', s'.call t = some k' → ∃ k, s.call t = some k ∧ k.Grows k')
    (honline : ∀ c, has s.online c = true → has s'.online c = true)
    (hprogress : s'.inProgress = s.inProgress) (htarget : s'.target = s.target)
    (hhome : ∀ t, s.pinned t = true → s'.home t = s.home t)
    (howes : ∀ t k k', s.call t = some k → s'.call t = some k' → k.Grows k' →
      s.target = k.target → ∀ c, s.Owes k.target c →
      k'.covered c = true ∨ s'.Owes k.target c) : CallsOk s' := by
  refine ⟨fun t k' hk' => ?_, fun t u k' l' hk' hl' hkh hlh => ?_, fun t k' hk' hh => ?_,
    fun t k' hk' => ?_⟩
  · obtain ⟨k, hk, hg⟩ := hcalls t k' hk'
    rw [hg.online]
    exact fun c hc => honline c (h.online t k hk c hc)
  · obtain ⟨k, hk, hkg⟩ := hcalls t k' hk'
    obtain ⟨l, hl, hlg⟩ := hcalls u l' hl'
    exact h.holder t u k l hk hl (hkg.stage ▸ hkh) (hlg.stage ▸ hlh)
  · obtain ⟨k, hk, hg⟩ := hcalls t k' hk'
    rw [hprogress]
    exact h.locked t k hk (hg.stage ▸ hh)
  · obtain ⟨k, hk, hg⟩ := hcalls t k' hk'
    refine (h.ok t k hk).frame hg (fun hpin => hhome t ?_) (fun _ => htarget) fun _ =>
      howes t k k' hk hk' hg
    simp [Sys.pinned, hk, hpin]

/-- A call goes on to another stage, and nobody else holds `IN_PROGRESS` unless
the shared words stay as they are. -/
theorem setStage (h : CallsOk s) (hk : s.call t = some k) (hcall : s'.call = s.call)
    (hhome : s'.home = s.home) (honline : s'.online = s.online)
    (hok : ({ k with stage := stage } : Call).Ok s' (s.home t))
    (hholds : stage.holds = true → s'.inProgress = true)
    (halone : (∀ u l, u ≠ t → s.call u = some l → l.stage.holds = false) ∨
      (stage.holds = k.stage.holds ∧ s'.inProgress = s.inProgress ∧ s'.target = s.target ∧
        ∀ target c, s.Owes target c → s'.Owes target c)) : CallsOk (s'.setStage t stage) := by
  have hcase : ∀ u l, (s'.setStage t stage).call u = some l →
      u = t ∧ l = { k with stage := stage } ∨ u ≠ t ∧ s.call u = some l := by
    intro u l hl
    rcases eq_or_ne u t with rfl | hu
    · simpa [Sys.setStage, hcall, hk] using hl.symm
    · simpa [Sys.setStage, hu, hcall] using hl
  -- Where another call holds the lock, the words are untouched.
  have hsame : ∀ u l, u ≠ t → s.call u = some l → l.stage.holds = true →
      stage.holds = k.stage.holds ∧ s'.inProgress = s.inProgress ∧ s'.target = s.target ∧
        ∀ target c, s.Owes target c → s'.Owes target c := by
    intro u l hu hl hlh
    refine halone.resolve_left fun hall => ?_
    rw [hall u l hu hl] at hlh
    cases hlh
  have hunique : ∀ u l, u ≠ t → s.call u = some l → l.stage.holds = true →
      stage.holds = false := by
    intro u l hu hl hlh
    rw [(hsame u l hu hl hlh).1]
    exact Bool.eq_false_iff.mpr fun hkh => hu (h.holder u t l k hl hk hlh hkh)
  refine ⟨fun u l hl => ?_, fun u v l l' hl hl' hlh hlh' => ?_, fun u l hl hlh => ?_,
    fun u l hl => ?_⟩
  · change ∀ c, has l.online c = true → has s'.online c = true
    rw [honline]
    rcases hcase u l hl with ⟨rfl, rfl⟩ | ⟨-, hl⟩
    · exact h.online u k hk
    · exact h.online u l hl
  · rcases hcase u l hl with ⟨rfl, rfl⟩ | ⟨hu, hlu⟩ <;>
      rcases hcase v l' hl' with ⟨rfl, rfl⟩ | ⟨hv, hlv⟩
    · rfl
    · exact nomatch hlh.symm.trans (hunique v l' hv hlv hlh')
    · exact nomatch hlh'.symm.trans (hunique u l hu hlu hlh)
    · exact h.holder u v l l' hlu hlv hlh hlh'
  · change s'.inProgress = true
    rcases hcase u l hl with ⟨rfl, rfl⟩ | ⟨hu, hl⟩
    · exact hholds hlh
    · rw [(hsame u l hu hl hlh).2.1]
      exact h.locked u l hl hlh
  · change l.Ok _ (s'.home u)
    rw [hhome]
    rcases hcase u l hl with ⟨rfl, rfl⟩ | ⟨hu, hl⟩
    · exact hok.frame (.refl _) (fun _ => rfl) (fun _ => rfl) fun _ _ _ howe => .inr { howe with }
    · refine (h.ok u l hl).frame (.refl l) (fun _ => rfl) (fun hst => ?_) fun hst _ c howe => ?_
      · exact (hsame u l hu hl (Stage.holds_of_targeted hst)).2.2.1
      · exact .inr { (hsame u l hu hl (Stage.holds_of_published hst)).2.2.2 _ c howe with }

variable {c : Cpu}

theorem grows_invalidate {target : Target} {k' : Call}
    (hk' : (s.invalidate c target).call t = some k') :
    ∃ k, s.call t = some k ∧ k.Grows k' ∧ k' = k.cover c target := by
  obtain ⟨k, hk, rfl⟩ := Option.map_eq_some_iff.mp hk'
  exact ⟨k, hk, k.grows_cover c target, rfl⟩

section

variable (h : CallsOk s)

include h

theorem invalidate (c : Cpu) (target : Target) :
    CallsOk (s.invalidate c target) := by
  refine h.frame (fun t k' hk' => ?_) (fun _ hc => hc) rfl rfl (fun _ _ => rfl)
    fun _ _ _ _ _ _ _ _ howe => .inr { howe with }
  obtain ⟨k, hk, hg, -⟩ := grows_invalidate hk'
  exact ⟨k, hk, hg⟩

/-- The calls and the words they share stay, and no acknowledgement is owed less. -/
theorem stir (hcall : s'.call = s.call) (honline : s'.online = s.online)
    (hprogress : s'.inProgress = s.inProgress) (htarget : s'.target = s.target)
    (hhome : s'.home = s.home) (howes : ∀ c, s.Owes s.target c → s'.Owes s.target c) :
    CallsOk s' := by
  refine h.frame (fun t k hk => ⟨k, hcall ▸ hk, .refl k⟩) (fun c hc => honline ▸ hc) hprogress
    htarget (fun t _ => congrFun hhome t) fun t k _ _ _ _ ht c howe => .inr ?_
  rw [← ht] at howe ⊢
  exact howes c howe

/-- One step of a `service_pending` on the CPU whose number it read. -/
theorem service {sv : Serve} (serve : Fin m → Option Serve)
    (nested : Cpu → Option Serve) (hsv : s.Active sv) (hon : sv.On c)
    (hs' : s' = { (s.serviceStep c sv).1 with serve := serve, nested := nested })
    (hnew : ∀ sv', s'.Active sv' → s.Active sv' ∨ (s.serviceStep c sv).2 = some sv') :
    CallsOk s' := by
  subst hs'
  have hn : ∀ d, (∀ target, sv ≠ .loaded d target) →
      ∀ sv', _ → s.Active sv' ∨ sv'.Fresh s.target d :=
    fun d hd sv' hsv' => (hnew sv' hsv').imp_right fun heq => Sys.fresh_serviceStep heq hd
  cases sv with
  | top | read | owing =>
    exact h.stir rfl rfl rfl rfl rfl fun d howe => howe.mono id (hn d nofun)
  | loaded cpu target =>
    obtain rfl : cpu = c := hon
    refine h.frame (fun t k' hk' => ?_) (fun _ hc => hc) rfl rfl (fun _ _ => rfl)
      fun t k k' hk hk' _ ht d howe => ?_
    · obtain ⟨k, hk, hg, -⟩ := grows_invalidate hk'
      exact ⟨k, hk, hg⟩
    · by_cases hd : d = cpu
      · -- The CPU's own invalidation, for the target that the call stored.
        subst hd
        obtain ⟨l, hl, -, rfl⟩ := grows_invalidate hk'
        obtain rfl := Option.mem_unique hk hl
        have htarget : target = k.target := howe.fresh _ hsv rfl
        exact .inl (Call.covered_cover (by rw [htarget, Target.covers_self]) d)
      · refine .inr (howe.mono id (ht ▸ hn d fun target' heq => hd ?_))
        injection heq with hcpu
        exact hcpu.symm
  | flushed cpu =>
    refine h.stir rfl rfl rfl rfl rfl fun d howe => howe.mono (fun hd => ?_) (hn d nofun)
    have hne : cpu ≠ d := howe.fresh _ hsv
    simp [Sys.serviceStep, hd, hne.symm]

theorem alone (hk : s.call t = some k) (hh : k.stage.holds = true) (u : Fin m)
    (l : Call) (hu : u ≠ t) (hl : s.call u = some l) : l.stage.holds = false :=
  Bool.eq_false_iff.mpr fun hlh => hu (h.holder u t l k hl hk hlh hh)

theorem alone_of_free (hfree : s.inProgress = false) (u : Fin m) (l : Call)
    (hl : s.call u = some l) : l.stage.holds = false := by
  refine Bool.eq_false_iff.mpr fun hlh => ?_
  rw [h.locked u l hl hlh] at hfree
  cases hfree

/-- A stage of the local half, where nothing shared changes. -/
theorem proceed (hk : s.call t = some k)
    (hok : ({ k with stage := stage } : Call).Ok s (s.home t))
    (hholds : stage.holds = k.stage.holds) : CallsOk (s.setStage t stage) := by
  refine h.setStage hk rfl rfl rfl hok (fun hh => ?_) (.inr ⟨hholds, rfl, rfl, fun _ _ => id⟩)
  exact h.locked t k hk (hholds ▸ hh)

/-- The call that holds `IN_PROGRESS` changes the shared words. -/
theorem drive (hk : s.call t = some k) (hh : k.stage.holds = true)
    (hcall : s'.call = s.call) (hhome : s'.home = s.home) (honline : s'.online = s.online)
    (hok : ({ k with stage := stage } : Call).Ok s' (s.home t))
    (hlock : stage.holds = true → s'.inProgress = s.inProgress) :
    CallsOk (s'.setStage t stage) := by
  refine h.setStage hk hcall hhome honline hok (fun hstage => ?_) (.inl (h.alone hk hh))
  rw [hlock hstage]
  exact h.locked t k hk hh

theorem begins {serve : Fin m → Option Serve} {nested : Cpu → Option Serve}
    {ipis : BitVec 64} (hs' : s' = { s with serve := serve, nested := nested, ipis := ipis })
    (hnew : ∀ sv, s'.Active sv → s.Active sv ∨ sv = .top) : CallsOk s' := by
  subst hs'
  refine h.stir rfl rfl rfl rfl rfl fun d howe => howe.mono id fun sv hsv => ?_
  refine (hnew sv hsv).imp_right fun heq => ?_
  subst heq
  trivial

end

end CallsOk

theorem Sys.active_update_serve {t : Fin m} (h : s'.Active sv)
    (hserve : s'.serve = update s.serve t r) (hnested : s'.nested = s.nested) :
    s.Active sv ∨ r = some sv := by
  rcases h with ⟨u, hu⟩ | ⟨c, hc⟩
  · rw [hserve] at hu
    rw [update_apply] at hu
    split_ifs at hu with hut
    · exact .inr hu
    · exact .inl (.inl ⟨u, hu⟩)
  · rw [hnested] at hc
    exact .inl (.inr ⟨c, hc⟩)

theorem Sys.active_update_nested (h : s'.Active sv) (hserve : s'.serve = s.serve)
    (hnested : s'.nested = update s.nested c r) :
    s.Active sv ∨ r = some sv := by
  rcases h with ⟨u, hu⟩ | ⟨d, hd⟩
  · rw [hserve] at hu
    exact .inl (.inl ⟨u, hu⟩)
  · rw [hnested] at hd
    rw [update_apply] at hd
    split_ifs at hd with hdc
    · exact .inr hd
    · exact .inl (.inr ⟨d, hd⟩)

theorem Sys.fresh_of_not_late {mask : BitVec 64} (h : s.hasLate mask = false)
    (hc : has mask c = true) (hsv : s.Active sv) :
    sv.Fresh target c := by
  have hlate : sv.late mask = false := by
    simp only [hasLate, Bool.or_eq_false_iff, decide_eq_false_iff_not, not_exists] at h
    rcases hsv with ⟨t, ht⟩ | ⟨d, hd⟩
    · simpa [ht] using h.1 t
    · simpa [hd] using h.2 d
  cases sv with
  | top | read | owing => trivial
  | loaded cpu target' | flushed cpu =>
    rintro rfl
    simp [Serve.late, hc] at hlate

namespace CallsOk

variable {s s' : Sys m} {t : Fin m} {k : Call} {c : Cpu}

theorem spins (h : CallsOk s) (t : Fin m) :
    CallsOk { s with serve := update s.serve t (some .top) } := by
  refine h.begins rfl fun sv hsv => ?_
  exact (Sys.active_update_serve hsv rfl rfl).imp_right fun heq => (Option.some.inj heq).symm

theorem nests (h : CallsOk s) (c : Cpu) (ipis : BitVec 64) :
    CallsOk { s with ipis := ipis, nested := update s.nested c (some .top) } := by
  refine h.begins rfl fun sv hsv => ?_
  exact (Sys.active_update_nested (s := s) hsv rfl rfl).imp_right fun heq =>
    (Option.some.inj heq).symm

theorem unmap (h : CallsOk s) (hk : s.call t = some k) (hhome : s.home t = c) {spurious : Bool}
    (hs : s.unmapStep c t k spurious = some s')
    (hlate : ∀ remote, k.stage = .storePending remote → s.hasLate remote = false) : CallsOk s' := by
  have hok := h.ok t k hk
  unfold Call.Ok at hok
  unfold Sys.unmapStep at hs
  cases hst : k.stage with
  | cleared =>
    simp only [hst] at hs
    cases hs
    have hcov : (s.invalidate c k.target).call t = some (k.cover c k.target) := by
      simp [Sys.invalidate, hk]
    refine (h.invalidate c k.target).proceed hcov ?_ (by simp [Call.cover, hst]; rfl)
    change (k.cover c k.target).covered (s.home t) = true
    rw [hhome]
    exact Call.covered_cover (Target.covers_self _) c
  | flushed =>
    simp only [hst] at hs hok
    cases hs
    exact h.proceed hk ⟨hok, h.online t k hk⟩ (by rw [hst]; rfl)
  | counted online =>
    simp only [hst] at hs hok
    have hcpu : ∀ d, has k.online d = true →
        k.covered d = true ∨ has (remoteMask online c.val) d = true := by
      intro d hd
      by_cases hdc : d = c
      · rw [hdc, ← hhome]
        exact .inl hok.1
      · exact .inr (by simp [hok.2 d hd, hdc])
    split_ifs at hs with hzero
    · cases hs
      refine h.proceed hk (fun d hd => ?_) (by rw [hst]; rfl)
      simpa [hzero] using hcpu d hd
    · cases hs
      exact h.proceed hk hcpu (by rw [hst]; rfl)
  | acquire remote =>
    simp only [hst] at hs hok
    split_ifs at hs with hfree
    · cases hs
      exact h.spins t
    · cases hs
      have hnone : s.inProgress = false := by
        simp only [Bool.or_eq_true, not_or, Bool.not_eq_true] at hfree
        exact hfree.1
      exact h.setStage hk rfl rfl rfl hok (fun _ => rfl)
        (.inl fun u l _ hl => h.alone_of_free hnone u l hl)
  | storeTarget remote =>
    simp only [hst] at hs hok
    cases hs
    exact h.drive hk (by rw [hst]; rfl) rfl rfl rfl ⟨rfl, hok⟩ fun _ => rfl
  | storePending remote =>
    simp only [hst] at hs hok
    cases hs
    refine h.drive hk (by rw [hst]; rfl) rfl rfl rfl ⟨hok.1, fun d hd => ?_⟩ fun _ => rfl
    exact (hok.2 d hd).imp_right fun hr =>
      ⟨hr, fun sv hsv => Sys.fresh_of_not_late (hlate remote hst) hr hsv⟩
  | sendIpi =>
    simp only [hst] at hs hok
    cases hs
    refine h.drive hk (by rw [hst]; rfl) rfl rfl rfl ⟨hok.1, fun d hd => ?_⟩ fun _ => rfl
    exact (hok.2 d hd).imp_right fun howe => { howe with }
  | wait =>
    simp only [hst] at hs hok
    split_ifs at hs with hzero
    · cases hs
      refine h.proceed hk (fun d hd => ?_) (by rw [hst]; rfl)
      refine (hok.2 d hd).resolve_right fun howe => ?_
      have := howe.pending
      rw [hzero, has_zero] at this
      cases this
    · cases hs
      exact h.spins t
  | release =>
    simp only [hst] at hs hok
    cases hs
    exact h.drive hk (by rw [hst]; rfl) rfl rfl rfl hok fun hdone => by cases hdone
  | done =>
    simp only [hst] at hs
    cases hs

end CallsOk

theorem CallsOk.idle (h : CallsOk s) (running : Cpu → Option (Fin m)) (masked : Fin m → Bool) :
    CallsOk { s with running := running, masked := masked } :=
  h.stir rfl rfl rfl rfl rfl fun _ howe => { howe with }

/-- A call begins by clearing its entry; what it saw online stays online. -/
theorem CallsOk.clear (h : CallsOk s) (t : Fin m) (target : Target) :
    CallsOk { s with
      call := update s.call t (some ⟨target, .cleared, s.online, fun _ => false⟩) } := by
  have hcase : ∀ u k,
      update s.call t (some ⟨target, .cleared, s.online, fun _ => false⟩) u = some k →
      s.call u = some k ∨ k = ⟨target, .cleared, s.online, fun _ => false⟩ := by
    intro u k hk
    by_cases hu : u = t
    · rw [hu, update_self, Option.some.injEq] at hk
      exact .inr hk.symm
    · rw [update_of_ne hu] at hk
      exact .inl hk
  refine ⟨fun u k hk => ?_, fun u v k l hk hl hkh hlh => ?_, fun u k hk hkh => ?_, fun u k hk => ?_⟩
  · rcases hcase u k hk with hk | rfl
    · exact h.online u k hk
    · exact fun _ hc => hc
  · rcases hcase u k hk with hk | rfl
    · rcases hcase v l hl with hl | rfl
      · exact h.holder u v k l hk hl hkh hlh
      · cases hlh
    · cases hkh
  · rcases hcase u k hk with hk | rfl
    · exact h.locked u k hk hkh
    · cases hkh
  · rcases hcase u k hk with hk | rfl
    · exact (h.ok u k hk).frame (.refl k) (fun _ => rfl) (fun _ => rfl) fun _ _ _ howe =>
        .inr { howe with }
    · trivial

theorem CallsOk.leave (h : CallsOk s) (t : Fin m) :
    CallsOk { s with call := update s.call t none } := by
  refine h.frame (fun u k hk => ?_) (fun _ hc => hc) rfl rfl (fun _ _ => rfl)
    fun _ _ _ _ _ _ _ _ howe => .inr { howe with }
  by_cases hu : u = t
  · simp [hu] at hk
  · exact ⟨k, by simpa [hu] using hk, .refl k⟩

/-! ### Steps -/

namespace Placed

variable {s s' : Sys m} {t : Fin m} {c : Cpu}

theorem boot : Placed (Sys.boot m) where
  home := fun c t h => by cases h
  thread := fun t sv h => by cases h
  nested := fun c sv h => by cases h

/-- A `service_pending` stays on the CPU whose number it read. -/
theorem on_service {sv sv' : Serve} (hon : sv.On c) (h : (s.serviceStep c sv).2 = some sv') :
    sv'.On c := by
  cases sv with
  | top =>
    cases h
    rfl
  | read cpu =>
    simp only [Sys.serviceStep] at h
    split_ifs at h
    cases h
    exact hon
  | owing cpu =>
    cases h
    exact hon
  | loaded cpu target =>
    cases h
    trivial
  | flushed cpu => cases h

variable {r : Option Serve}

theorem setServe (h : Placed s) (hr : ∀ sv, r = some sv → sv.On (s.home t))
    (hserve : s'.serve = update s.serve t r) (hrunning : s'.running = s.running)
    (hhome : s'.home = s.home) (hnested : s'.nested = s.nested) : Placed s' := by
  refine ⟨by rw [hrunning, hhome]; exact h.home, fun u sv hu => ?_, by rw [hnested]; exact h.nested⟩
  rw [hhome]
  rw [hserve] at hu
  rw [update_apply] at hu
  split_ifs at hu with hut
  · subst hut
    exact hr sv hu
  · exact h.thread u sv hu

theorem setNested (h : Placed s) (hr : ∀ sv, r = some sv → sv.On c)
    (hnested : s'.nested = update s.nested c r) (hrunning : s'.running = s.running)
    (hhome : s'.home = s.home) (hserve : s'.serve = s.serve) : Placed s' := by
  refine ⟨by rw [hrunning, hhome]; exact h.home, by rw [hserve, hhome]; exact h.thread,
    fun d sv hd => ?_⟩
  rw [hnested] at hd
  rw [update_apply] at hd
  split_ifs at hd with hdc
  · subst hdc
    exact hr sv hd
  · exact h.nested d sv hd

theorem unmap (h : Placed s) {k : Call} {spurious : Bool}
    (hs : s.unmapStep c t k spurious = some s') : Placed s' := by
  unfold Sys.unmapStep at hs
  split at hs
  case h_3 =>
    split at hs
    all_goals
      cases hs
      exact { h with }
  case h_4 | h_8 =>
    split at hs
    all_goals
      cases hs
      first
        | exact { h with }
        | exact h.setServe (fun sv heq => by cases heq; trivial) rfl rfl rfl rfl
  case h_10 => cases hs
  all_goals
    cases hs
    exact { h with }

end Placed

structure Inv (s : Sys m) : Prop where
  placed : Placed s
  calls : CallsOk s

namespace Inv

variable {s s' : Sys m} {t : Fin m} {c : Cpu}

theorem advance (h : Inv s) {spurious : Bool} (hs : s.advance c spurious = some s')
    (hguard : s.orderly (.advance c spurious) = true) : Inv s' := by
  obtain ⟨t, ht, hs⟩ := Option.bind_eq_some_iff.mp hs
  obtain ⟨-, hrun⟩ := Sys.current_eq_some.mp ht
  have hhome := h.placed.home c t hrun
  split at hs
  · rename_i sv hsv
    cases hs
    have hon : sv.On c := hhome ▸ h.placed.thread t sv hsv
    refine ⟨h.placed.setServe (fun sv' heq => ?_) rfl ?_ ?_ ?_,
      h.calls.service (update s.serve t (s.serviceStep c sv).2) s.nested
        (.inl ⟨t, hsv⟩) hon ?_ fun sv' hsv' => Sys.active_update_serve hsv' rfl ?_⟩
    · rw [hhome]
      exact Placed.on_service hon heq
    all_goals cases sv <;> rfl
  · obtain ⟨k, hk, hs⟩ := Option.bind_eq_some_iff.mp hs
    refine ⟨h.placed.unmap hs, h.calls.unmap hk hhome hs fun remote hst => ?_⟩
    simpa [Sys.orderly, ht, hk, hst, Stage.storing] using hguard

theorem handle (h : Inv s) (hs : s.handle c = some s') : Inv s' := by
  obtain ⟨sv, hsv, rfl⟩ := Option.map_eq_some_iff.mp hs
  have hon : sv.On c := h.placed.nested c sv hsv
  refine ⟨h.placed.setNested (fun sv' heq => Placed.on_service hon heq) rfl ?_ ?_ ?_,
    h.calls.service s.serve (update s.nested c (s.serviceStep c sv).2)
      (.inr ⟨c, hsv⟩) hon ?_ fun sv' hsv' => Sys.active_update_nested hsv' ?_ rfl⟩
  all_goals cases sv <;> rfl

theorem resume (h : Inv s) (hnot : s.isRunning t = false)
    (hstay : s.pinned t = true → c = s.home t) :
    Inv { s with running := update s.running c (some t), home := update s.home t c } := by
  have hsame : ∀ u, s.pinned u = true → update s.home t c u = s.home u := by
    intro u hpin
    rcases eq_or_ne u t with rfl | hu
    · rw [update_self, hstay hpin]
    · rw [update_of_ne hu]
  refine ⟨⟨fun d u hd => ?_, fun u sv hsv => ?_, h.placed.nested⟩, ?_⟩
  · rcases eq_or_ne d c with rfl | hdc
    · simp only [update_self, Option.some.injEq] at hd
      subst hd
      exact update_self ..
    · simp only [update_of_ne hdc] at hd
      have hu : u ≠ t := by
        rintro rfl
        simp only [Sys.isRunning, decide_eq_false_iff_not, not_exists] at hnot
        exact hnot d hd
      exact (update_of_ne hu _ _).trans (h.placed.home d u hd)
  · cases hpin : sv.unflushed with
    | false => exact .of_not_unflushed hpin _
    | true =>
      have hsv' : s.serve u = some sv := hsv
      change sv.On (update s.home t c u)
      rw [hsame u (by simp [Sys.pinned, hsv', hpin])]
      exact h.placed.thread u sv hsv
  · exact h.calls.frame (fun _ k hk => ⟨k, hk, .refl k⟩) (fun _ hd => hd) rfl rfl hsame
      fun _ _ _ _ _ _ _ _ howe => .inr { howe with }

theorem pinned_invalidate (target : Target) : (s.invalidate c target).pinned t = s.pinned t := by
  cases hk : s.call t <;> simp [Sys.pinned, Sys.invalidate, hk, Call.cover]

theorem dispatch (h : Inv s) {reload : Bool} (hs : s.step (.dispatch t c reload) = some s')
    (hguard : s.orderly (.dispatch t c reload) = true) : Inv s' := by
  have hstay : s.pinned t = true → c = s.home t := by
    intro hpin
    simpa [Sys.orderly, hpin] using hguard
  simp only [Sys.step] at hs
  split at hs
  · rename_i hfree
    cases hs
    cases reload with
    | false => exact h.resume hfree.2.2 hstay
    | true =>
      have hflushed : Inv (s.invalidate c .all) := ⟨{ h.placed with }, h.calls.invalidate c .all⟩
      exact hflushed.resume hfree.2.2 fun hpin => hstay (pinned_invalidate .all ▸ hpin)
  · cases hs

theorem step {a : Act m} (h : Inv s) (hs : s.step a = some s') (hguard : s.orderly a = true) :
    Inv s' := by
  cases a with
  | markOnline c =>
    cases hs
    refine ⟨{ h.placed with }, h.calls.frame (fun t k hk => ⟨k, hk, .refl k⟩) (fun d hd => ?_) rfl
      rfl (fun _ _ => rfl) fun _ _ _ _ _ _ _ _ howe => .inr { howe with }⟩
    simp [hd]
  | setMask c masked =>
    obtain ⟨t, -, rfl⟩ := Option.map_eq_some_iff.mp hs
    exact ⟨{ h.placed with }, h.calls.idle s.running _⟩
  | dispatch t c reload => exact h.dispatch hs hguard
  | preempt c =>
    obtain ⟨t, ht, hs⟩ := Option.bind_eq_some_iff.mp hs
    split_ifs at hs
    cases hs
    refine ⟨{ h.placed with home := fun d u hd => ?_ }, h.calls.idle _ s.masked⟩
    by_cases hdc : d = c
    · simp [hdc] at hd
    · exact h.placed.home d u (by simpa [hdc] using hd)
  | clear c target =>
    obtain ⟨t, -, rfl⟩ := Option.map_eq_some_iff.mp hs
    exact ⟨{ h.placed with }, h.calls.clear t target⟩
  | advance c spurious => exact h.advance hs hguard
  | leave c =>
    obtain ⟨t, -, hs⟩ := Option.bind_eq_some_iff.mp hs
    split_ifs at hs
    cases hs
    exact ⟨{ h.placed with }, h.calls.leave t⟩
  | spin c =>
    obtain ⟨t, ht, rfl⟩ := Option.map_eq_some_iff.mp hs
    exact ⟨h.placed.setServe (fun sv heq => by cases heq; trivial) rfl rfl rfl rfl,
      h.calls.spins t⟩
  | poll c | ipi c =>
    simp only [Sys.step] at hs
    split_ifs at hs
    cases hs
    exact ⟨h.placed.setNested (fun sv heq => by cases heq; trivial) rfl rfl rfl rfl,
      h.calls.nests c _⟩
  | handle c => exact h.handle hs
  | reload c =>
    cases hs
    exact ⟨{ h.placed with }, h.calls.invalidate c .all⟩

theorem boot : Inv (Sys.boot m) := ⟨.boot, .boot⟩

end Inv

/-- If a thread that has flushed and not yet read its CPU number, or is in
`service_pending` between the two, is resumed only on the CPU it left, and if
`PENDING` is stored only when no `service_pending` for a CPU of the new mask is
past its load of `TARGET`, then every `unmap` that returns has had an
invalidation executed, since its entry was cleared, on every CPU that was online
then. -/
theorem unmap_delivers {as : List (Act m)} {s : Sys m}
    (hrun : Run (fun s a s' => Sys.Step s a s' ∧ s.orderly a = true) (Sys.boot m) as s) :
    ∀ t k, s.call t = some k → k.stage = .done →
      ∀ c, has k.online c = true → k.covered c = true := by
  have hinv : Inv s := hrun.invariant (fun _ _ _ h hst => h.step hst.1 hst.2) .boot
  intro t k hk hst
  have hok := hinv.calls.ok t k hk
  unfold Call.Ok at hok
  simpa [hst] using hok

/-- An `unmap` on CPU 0, preempted while it waits and resumed on CPU 1, whose
wait loop then serves that CPU. -/
theorem unmap_delivers_resumed :
    ∃ s : Sys 1, Run (fun s a s' => Sys.Step s a s' ∧ s.orderly a = true) (Sys.boot 1)
      (List.flatten [[.markOnline 0, .markOnline 1, .dispatch 0 0 false, .clear 0 (.page 0x1000)],
        List.replicate 7 (.advance 0 false), [.preempt 0, .dispatch 0 1 false],
        List.replicate 8 (.advance 1 false)]) s ∧
      ∃ k, s.call 0 = some k ∧ k.stage = .done ∧ k.covered 0 = true ∧ k.covered 1 = true := by
  refine exists_run_of_exec_guarded
    (p := fun s => (s.call 0).any (fun k =>
      k.stage == .done && has k.online 0 && has k.online 1) = true)
    (by decide +kernel) fun s hrun hend => ?_
  simp only [Option.any_eq_true, Bool.and_eq_true, beq_iff_eq] at hend
  obtain ⟨k, hk, ⟨hst, hzero⟩, hone⟩ := hend
  have hall := unmap_delivers hrun 0 k hk hst
  exact ⟨k, hk, hst, hall 0 hzero, hall 1 hone⟩

/-- The thread flushes on CPU 0 and is resumed on CPU 1 before it reads its CPU
number: CPU 1 excludes itself and never invalidates. -/
theorem unmap_skips_cpu :
    ∃ s : Sys 1, Run Sys.Step (Sys.boot 1)
      (List.flatten [[.markOnline 0, .markOnline 1, .dispatch 0 0 false, .clear 0 (.page 0x1000),
        .advance 0 false, .preempt 0, .dispatch 0 1 false], List.replicate 6 (.advance 1 false),
        [.ipi 0], List.replicate 5 (.handle 0), List.replicate 2 (.advance 1 false)]) s ∧
      ∃ k, s.call 0 = some k ∧ k.stage = .done ∧ has k.online 1 = true ∧ k.covered 1 = false := by
  refine exists_run_of_exec
    (p := fun s => (s.call 0).any (fun k =>
      k.stage == .done && has k.online 1 && !k.covered 1) = true)
    (by decide +kernel) fun s _ hend => ?_
  simp only [Option.any_eq_true, Bool.and_eq_true, beq_iff_eq, Bool.not_eq_true'] at hend
  obtain ⟨k, hk, ⟨hst, honline⟩, hnot⟩ := hend
  exact ⟨k, hk, hst, honline, hnot⟩

end Qunix.Tlb
