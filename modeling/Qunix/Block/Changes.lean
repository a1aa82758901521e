/-
What a step does to the driver and to the calls.

Beside the chains (`Owned`), the calls and the slots fit (`Held`): a call that has
published owns the slot of its head, one call a head, and a slot that no call
owns is abandoned. Over such a state no section of the driver panics, and each
step is one of a few kinds (`Change`), from which the invariant and every later
result are read.
-/

import Qunix.Block.Ownership

namespace Qunix.Block

open Function Qunix.Virtio Qunix.Lib
open Qunix.BufferCache (Bytes BlkStatus BlockError)

/-- The calls and the slots fit. -/
structure Held (blk : Blk) (calls : Nat → Call) : Prop where
  owner : ∀ t h, (calls t).head? = some h → ∃ sl, blk.slots h = some sl ∧ sl.abandoned = false
  single : ∀ t u h, (calls t).head? = some h → (calls u).head? = some h → t = u
  kept : ∀ h sl, blk.slots h = some sl → sl.abandoned = true ∨ ∃ t, (calls t).head? = some h
  verdict : ∀ t r h st, calls t = .finish r h st → st ≠ statusTimedOut →
    ∃ sl, blk.slots h = some sl ∧ sl.done = true ∧ sl.status = st

structure Inv (s : Sys) (free : List Nat) (chains : List (List Nat)) : Prop where
  owned : Owned s.blk free chains
  held : Held s.blk s.calls

/-- What one step does, with the live chains before and after it. -/
inductive Change (s : Sys) (chains : List (List Nat)) : Act → Sys → List (List Nat) → Prop where
  | ticked : Change s chains .tick { s with ticks := s.ticks + 1 } chains
  | called {t : Nat} {r : Request} : (s.calls t).head? = none →
      Change s chains (.call t r) (s.setCall t (.reserve r)) chains
  | reserved {t : Nat} {r : Request} : s.calls t = .reserve r →
      Change s chains (.reserve t true)
        (s.setCall t (.submit r (s.ticks + requestTimeoutTicks))) chains
  | unreserved {t : Nat} {r : Request} : s.calls t = .reserve r →
      Change s chains (.reserve t false) (s.setCall t (.done (.error .queueFull) none)) chains
  | refused {t deadline : Nat} {r : Request} {e : BlockError} : s.calls t = .submit r deadline →
      Change s chains (.advance t) (s.setCall t (.done (.error e) none)) chains
  | submitted {t deadline h : Nat} {r : Request} {c : List Nat} {q : SplitQueue} :
      s.calls t = .submit r deadline → s.blk.slots h = none →
      (∀ i ∈ h :: c, ∀ c' ∈ chains, i ∉ c') →
      q.inFlight = update s.blk.queue.inFlight h true → q.chain queueSize h = h :: c →
      Change s chains (.advance t)
        ({ s with blk := s.blk.record q h r }.setCall t (.poll r h deadline)) ((h :: c) :: chains)
  /-- A poll that finds nothing, or the next poll. -/
  | waited {t h deadline : Nat} {r : Request} {c : Call} :
      s.calls t = .poll r h deadline ∧ c = .expire r h deadline ∨
        s.calls t = .expire r h deadline ∧ c = .waiting r h deadline ∨
        s.calls t = .waiting r h deadline ∧ c = .poll r h deadline →
      Change s chains (.advance t) (s.setCall t c) chains
  | polled {t h deadline : Nat} {r : Request} {sl : Slot} : s.calls t = .poll r h deadline →
      s.blk.slots h = some sl → sl.done = true →
      Change s chains (.advance t) (s.setCall t (.finish r h sl.status)) chains
  | expired {t h deadline : Nat} {r : Request} : s.calls t = .expire r h deadline →
      deadline ≤ s.ticks →
      Change s chains (.advance t) (s.setCall t (.finish r h statusTimedOut)) chains
  | finished {t h : Nat} {r : Request} {sl : Slot} {q : SplitQueue} {c : List Nat}
      {chains' : List (List Nat)} {result : Except BlockError Unit} {copied : Option Bytes} :
      s.calls t = .finish r h sl.status → sl.status ≠ statusTimedOut →
      s.blk.slots h = some sl → sl.done = true →
      q.inFlight = update s.blk.queue.inFlight h false → ((h :: c) :: chains').Perm chains →
      (result = .ok () → sl.status = 0 ∧
        ∀ len, r.into = some len → copied = some ((s.blk.bounce h).take len)) →
      Change s chains (.advance t)
        ({ s with blk := { s.blk with queue := q, slots := update s.blk.slots h none } }.setCall t
          (.done result copied)) chains'
  | timedOut {t h : Nat} {r : Request} : s.calls t = .finish r h statusTimedOut →
      Change s chains (.advance t)
        ({ s with blk := s.blk.abandon h }.setCall t (.done (.error .timeout) none)) chains
  | droppedDone {t h deadline : Nat} {r : Request} {sl : Slot} {q : SplitQueue} {c : List Nat}
      {chains' : List (List Nat)} : s.calls t = .waiting r h deadline →
      s.blk.slots h = some sl → sl.done = true →
      q.inFlight = update s.blk.queue.inFlight h false → ((h :: c) :: chains').Perm chains →
      Change s chains (.drop t)
        ({ s with blk := { s.blk with queue := q, slots := update s.blk.slots h none } }.setCall t
          .idle) chains'
  | dropped {t h deadline : Nat} {r : Request} {sl : Slot} : s.calls t = .waiting r h deadline →
      s.blk.slots h = some sl → sl.done = false →
      Change s chains (.drop t) ({ s with blk := s.blk.abandon h }.setCall t .idle) chains
  | handled {d : DeviceInput} {taken : List Nat} {blk' : Blk} {chains' : List (List Nat)} :
      s.blk.handleCompletion d = .ok (taken, blk') →
      Handled d (s.blk.pending d) s.blk chains taken blk' chains' →
      Change s chains (.interrupt d) { s with blk := blk' } chains'
  | dma {h : Nat} {bytes : Bytes} :
      Change s chains (.dma h bytes)
        { s with blk := { s.blk with bounce := update s.blk.bounce h bytes } } chains

variable {blk : Blk} {h : Nat} {s s' : Sys} {a : Act} {chains chains' : List (List Nat)}

theorem Blk.record_slots_of_ne {q : SplitQueue} {k : Nat} {r : Request} (hk : k ≠ h) :
    (blk.record q h r).slots k = blk.slots k :=
  update_of_ne hk ..

/-! ### Every step is a change -/

variable {b : UInt8}

theorem statusFromByte_eq_ok : statusFromByte b = .ok ↔ b = 0 := by
  unfold statusFromByte
  split
  · simp_all
  · split
    · simp_all
    · split <;> simp_all

/-- The answer that the status byte asks for. -/
def answerOf (status : UInt8) : Except BlockError Unit :=
  match statusFromByte status with
  | .ok => .ok ()
  | other => .error (.device other)

theorem answerOf_of_ne_zero (h : b ≠ 0) :
    answerOf b = .error (.device (statusFromByte b)) := by
  have hne := statusFromByte_eq_ok.not.mpr h
  unfold answerOf
  cases hb : statusFromByte b with
  | ok => exact absurd hb hne
  | _ => rfl

theorem answerOf_eq_ok : answerOf b = .ok () ↔ b = 0 := by
  constructor
  · intro h
    by_contra hne
    rw [answerOf_of_ne_zero hne] at h
    cases h
  · rintro rfl
    rfl

namespace Inv

variable {s s' : Sys} {free : List Nat} {chains : List (List Nat)} {t h : Nat}

variable (i : Inv s free chains)

include i

theorem finish_eq {r : Request} {st : UInt8}
    (hc : s.calls t = .finish r h st) (hst : st ≠ statusTimedOut) :
    ∃ sl q c chains' free' result copied, s.blk.slots h = some sl ∧ sl.done = true ∧
      sl.status = st ∧
      s.blk.finish h st r.into = .ok (result, copied,
        { s.blk with queue := q, slots := update s.blk.slots h none }) ∧
      q.inFlight = update s.blk.queue.inFlight h false ∧ ((h :: c) :: chains').Perm chains ∧
      (result = .ok () → st = 0 ∧
        ∀ len, r.into = some len → copied = some ((s.blk.bounce h).take len)) ∧
      Owned { s.blk with queue := q, slots := update s.blk.slots h none } free' chains' := by
  obtain ⟨sl, hsl, hd, hs⟩ := i.held.verdict t r h st hc hst
  obtain ⟨c, chains', hp, o⟩ := i.owned.front hsl
  obtain ⟨q, hr, hq, -, o'⟩ := o.release
  unfold Blk.finish
  simp only [if_neg hst]
  cases hi : r.into with
  | none =>
    refine ⟨sl, q, c, chains', _, _, none, hsl, hd, hs, by simp only [hr]; rfl, hq,
      hp, fun hok => ⟨answerOf_eq_ok.mp hok, by simp⟩, o'⟩
  | some len =>
    simp only
    split
    · exact ⟨sl, q, c, chains', _, .error .short, none, hsl, hd, hs,
        by simp only [hr]; rfl, hq, hp, by simp, o'⟩
    · refine ⟨sl, q, c, chains', _, _, _, hsl, hd, hs, by simp only [hr]; rfl, hq,
        hp, fun hok => ⟨answerOf_eq_ok.mp hok, fun len' hlen => ?_⟩, o'⟩
      rw [Option.some.inj hlen]

theorem advance_change (hst : s.advance t = some s') :
    ∃ free' chains', Change s chains (.advance t) s' chains' ∧ Owned s'.blk free' chains' := by
  unfold Sys.advance at hst
  cases hc : s.calls t with
  | idle | reserve r | done result copied => simp [hc] at hst
  | submit r deadline =>
    simp only [hc, Option.some.injEq, Sys.submit] at hst
    rcases i.owned.submit r with ⟨e, he, -⟩ | ⟨h, c, rest, q, hfr, hs, hq, o, -⟩
    · rw [he] at hst
      exact ⟨free, chains, hst ▸ .refused hc, hst ▸ i.owned⟩
    · rw [hs] at hst
      have hmem : ∀ k ∈ h :: c, k ∈ free := fun k hk => hfr ▸ List.mem_append_left rest hk
      refine ⟨rest, (h :: c) :: chains, hst ▸ .submitted hc ?_ ?_ hq ?_, hst ▸ o⟩
      · by_contra hne
        obtain ⟨c', hc'⟩ := i.owned.chain_of_slot (Option.ne_none_iff_exists'.mp hne).choose_spec
        exact i.owned.laid.not_mem_of_free (hmem h List.mem_cons_self) hc' List.mem_cons_self
      · exact fun k hk c' hc' => i.owned.laid.not_mem_of_free (hmem k hk) hc'
      · refine SplitQueue.chain_eq (o.laid.walks _ List.mem_cons_self) ?_
        rw [o.three _ List.mem_cons_self]
        decide
  | poll r h deadline =>
    simp only [hc, Option.some.injEq, Sys.pollDevice, Blk.pollDevice] at hst
    obtain ⟨sl, hsl, -⟩ := i.held.owner t h (by rw [hc]; rfl)
    by_cases hd : sl.done = true
    · simp only [hsl, hd] at hst
      exact ⟨free, chains, hst ▸ .polled hc hsl hd, hst ▸ i.owned⟩
    · simp only [hsl, if_neg hd] at hst
      exact ⟨free, chains, hst ▸ .waited (.inl ⟨hc, rfl⟩), hst ▸ i.owned⟩
  | expire r h deadline =>
    simp only [hc, Option.some.injEq, Sys.pollDeadline] at hst
    split_ifs at hst with hl
    · exact ⟨free, chains, hst ▸ .expired hc hl, hst ▸ i.owned⟩
    · exact ⟨free, chains, hst ▸ .waited (.inr (.inl ⟨hc, rfl⟩)), hst ▸ i.owned⟩
  | waiting r h deadline =>
    simp only [hc, Option.some.injEq] at hst
    exact ⟨free, chains, hst ▸ .waited (.inr (.inr ⟨hc, rfl⟩)), hst ▸ i.owned⟩
  | finish r h st =>
    simp only [hc, Option.some.injEq, Sys.finish] at hst
    rcases eq_or_ne st statusTimedOut with rfl | ht
    · exact ⟨free, chains, hst ▸ .timedOut hc, hst ▸ i.owned.abandon h⟩
    · obtain ⟨sl, q, c, chains', free', result, copied, hsl, hd, rfl, hf, hq, hp, hok, o⟩ :=
        i.finish_eq hc ht
      rw [hf] at hst
      exact ⟨free', chains', hst ▸ .finished hc ht hsl hd hq hp hok, hst ▸ o⟩

theorem drop_change (hst : s.drop t = some s') :
    ∃ free' chains', Change s chains (.drop t) s' chains' ∧ Owned s'.blk free' chains' := by
  unfold Sys.drop at hst
  split at hst
  · rename_i r h deadline hc
    obtain ⟨sl, hsl, -⟩ := i.held.owner t h (by rw [hc]; rfl)
    by_cases hd : sl.done = true
    · obtain ⟨c, chains', hp, o⟩ := i.owned.front hsl
      obtain ⟨q, hr, hq, -, o'⟩ := o.release
      simp only [Blk.dropRequest, hsl, hd, if_true, hr, Option.some.injEq] at hst
      subst hst
      exact ⟨_, chains', .droppedDone hc hsl hd hq hp, o'⟩
    · simp only [Blk.dropRequest, hsl, if_neg hd, Option.some.injEq] at hst
      exact ⟨free, chains, hst ▸ .dropped hc hsl (by simpa using hd), hst ▸ i.owned.abandon h⟩
  · cases hst

theorem change {a : Act} (hst : Sys.Step s a s') :
    ∃ free' chains', Change s chains a s' chains' ∧ Owned s'.blk free' chains' := by
  obtain ⟨-, hst⟩ := Option.ite_none_left_eq_some.mp hst
  cases a with
  | tick =>
    cases hst
    exact ⟨free, chains, .ticked, i.owned⟩
  | call t r =>
    cases hc : s.calls t <;> simp only [hc, Option.some.injEq, reduceCtorEq] at hst
    all_goals exact ⟨free, chains, hst ▸ .called (by rw [hc]; rfl), hst ▸ i.owned⟩
  | reserve t room =>
    cases hc : s.calls t <;> simp only [hc, reduceCtorEq] at hst
    cases room with
    | true => exact ⟨free, chains, Option.some.inj hst ▸ .reserved hc,
        Option.some.inj hst ▸ i.owned⟩
    | false => exact ⟨free, chains, Option.some.inj hst ▸ .unreserved hc,
        Option.some.inj hst ▸ i.owned⟩
  | advance t => exact i.advance_change hst
  | drop t => exact i.drop_change hst
  | interrupt d =>
    obtain ⟨taken, blk', free', chains', hha, hh, o⟩ := i.owned.handleCompletion d
    simp only [hha, Option.some.injEq] at hst
    exact ⟨free', chains', hst ▸ .handled hha hh, hst ▸ o⟩
  | dma h bytes =>
    cases hst
    exact ⟨free, chains, .dma, i.owned.of_done_eq i.owned.laid rfl rfl fun _ => rfl⟩

end Inv

/-! ### The calls and the slots -/

namespace Held

variable {blk blk' : Blk} {calls : Nat → Call} {t h : Nat} {c : Call} {sl : Slot}

variable (k : Held blk calls)

include k

theorem of_slots_eq (hs : blk'.slots = blk.slots) : Held blk' calls where
  owner := hs ▸ k.owner
  single := k.single
  kept := hs ▸ k.kept
  verdict := hs ▸ k.verdict

theorem go_on (hh : c.head? = (calls t).head?)
    (hc : ∀ r h st, c = .finish r h st → st ≠ statusTimedOut →
      ∃ sl, blk.slots h = some sl ∧ sl.done = true ∧ sl.status = st) :
    Held blk (update calls t c) := by
  have hs : ∀ u, (update calls t c u).head? = (calls u).head? := by
    intro u
    by_cases hu : u = t
    · rw [hu, update_self, hh]
    · rw [update_of_ne hu]
  refine ⟨fun u h => hs u ▸ k.owner u h, fun u w h => hs u ▸ hs w ▸ k.single u w h, ?_, ?_⟩
  · simp only [hs]
    exact k.kept
  · intro u r h st hu
    rw [update_apply] at hu
    split_ifs at hu with hut
    · exact hc r h st hu
    · exact k.verdict u r h st hu

theorem leave (hca : (calls t).head? = some h) (hc : c.head? = none)
    {x : Option Slot} (hx : ∀ sl, x = some sl → sl.abandoned = true)
    (hs : blk'.slots = update blk.slots h x) : Held blk' (update calls t c) := by
  have ho : ∀ u k', (update calls t c u).head? = some k' →
      u ≠ t ∧ k' ≠ h ∧ (calls u).head? = some k' := by
    intro u k' hu
    by_cases hut : u = t
    · rw [hut, update_self, hc] at hu
      cases hu
    · rw [update_of_ne hut] at hu
      exact ⟨hut, fun hk => hut (k.single u t h (hk ▸ hu) hca), hu⟩
  refine ⟨fun u k' hu => ?_, fun u w k' hu hw => ?_, fun k' sl hsl => ?_, fun u r k' st hu => ?_⟩
  · obtain ⟨-, hk, hu⟩ := ho u k' hu
    rw [hs, update_of_ne hk]
    exact k.owner u k' hu
  · exact k.single u w k' (ho u k' hu).2.2 (ho w k' hw).2.2
  · rw [hs] at hsl
    rw [update_apply] at hsl
    split_ifs at hsl with hk
    · exact .inl (hx sl hsl)
    · refine (k.kept k' sl hsl).imp_right fun ⟨u, hu⟩ => ⟨u, ?_⟩
      have hut : u ≠ t := by
        rintro rfl
        exact hk (Option.mem_unique hu hca)
      rw [update_of_ne hut]
      exact hu
  · obtain ⟨hut, hk, -⟩ := ho u k' (by rw [hu]; rfl)
    rw [update_of_ne hut] at hu
    rw [hs, update_of_ne hk]
    exact k.verdict u r k' st hu

theorem enter {r : Request} {deadline : Nat} {q : SplitQueue}
    (hc : (calls t).head? = none) (hf : blk.slots h = none) :
    Held (blk.record q h r) (update calls t (.poll r h deadline)) := by
  have hnew : ∀ u k', (update calls t (.poll r h deadline) u).head? = some k' →
      u = t ∧ k' = h ∨ u ≠ t ∧ k' ≠ h ∧ (calls u).head? = some k' := by
    intro u k' hu
    rw [update_apply] at hu
    split_ifs at hu with hut
    · exact .inl ⟨hut, (Option.some.inj hu).symm⟩
    · refine .inr ⟨hut, fun hk => ?_, hu⟩
      obtain ⟨sl, hsl, -⟩ := k.owner u k' hu
      rw [hk, hf] at hsl
      cases hsl
  refine ⟨fun u k' hu => ?_, fun u w k' hu hw => ?_, fun k' sl hsl => ?_, fun u r' k' st hu => ?_⟩
  · rcases hnew u k' hu with ⟨-, rfl⟩ | ⟨-, hk, hu⟩
    · exact ⟨_, update_self .., rfl⟩
    · rw [Blk.record_slots_of_ne hk]
      exact k.owner u k' hu
  · rcases hnew u k' hu with ⟨rfl, rfl⟩ | ⟨-, hk, hu⟩ <;>
      rcases hnew w k' hw with ⟨rfl, hk'⟩ | ⟨-, hk', hw⟩
    · rfl
    · exact absurd rfl hk'
    · exact absurd hk' hk
    · exact k.single u w k' hu hw
  · by_cases hk : k' = h
    · exact .inr ⟨t, by rw [update_self, hk]; rfl⟩
    · rw [Blk.record_slots_of_ne hk] at hsl
      refine (k.kept k' sl hsl).imp_right fun ⟨u, hu⟩ => ⟨u, ?_⟩
      rw [update_of_ne (by rintro rfl; rw [hc] at hu; cases hu)]
      exact hu
  · rw [update_apply] at hu
    split_ifs at hu with hut
    intro hst
    obtain ⟨sl, hsl, hd⟩ := k.verdict u r' k' st hu hst
    refine ⟨sl, ?_, hd⟩
    rw [Blk.record_slots_of_ne (by rintro rfl; rw [hf] at hsl; cases hsl)]
    exact hsl

theorem handled {d : DeviceInput} {n : Nat}
    {chains chains' : List (List Nat)} {taken : List Nat}
    (hh : Handled d n blk chains taken blk' chains') : Held blk' calls := by
  induction hh with
  | nil => exact k
  | skipped _ _ ih => exact ih (k.of_slots_eq rfl)
  | @landed blk blk' _ _ _ h _ _ sl _ _ hsl ha hd _ _ _ _ _ ih =>
    refine ih ⟨fun u k' hu => ?_, k.single, fun k' sl' hsl' => ?_, fun u r k' st hu hst => ?_⟩
    · by_cases hk : k' = h
      · rw [hk]
        exact ⟨_, update_self .., ha⟩
      · simp only [update_of_ne hk]
        exact k.owner u k' hu
    · by_cases hk : k' = h
      · rw [hk]
        exact .inr ((k.kept h sl hsl).resolve_left (by simp [ha]))
      · simp only [update_of_ne hk] at hsl'
        exact k.kept k' sl' hsl'
    · obtain ⟨sl', hsl', hd', hs⟩ := k.verdict u r k' st hu hst
      have hk : k' ≠ h := by
        rintro rfl
        rw [hsl] at hsl'
        rw [← Option.some.inj hsl', hd] at hd'
        cases hd'
      simp only [update_of_ne hk]
      exact ⟨sl', hsl', hd', hs⟩
  | @freed blk blk' _ _ _ _ _ h _ _ sl _ _ hsl ha _ _ _ _ _ _ _ ih =>
    have hne : ∀ u k', (calls u).head? = some k' → k' ≠ h := by
      rintro u k' hu rfl
      obtain ⟨sl', hsl', hown⟩ := k.owner u k' hu
      rw [hsl] at hsl'
      rw [← Option.some.inj hsl', ha] at hown
      cases hown
    refine ih ⟨fun u k' hu => ?_, k.single, fun k' sl' hsl' => ?_, fun u r k' st hu => ?_⟩
    · simp only [update_of_ne (hne u k' hu)]
      exact k.owner u k' hu
    · by_cases hk : k' = h
      · simp [hk] at hsl'
      · simp only [update_of_ne hk] at hsl'
        exact k.kept k' sl' hsl'
    · simp only [update_of_ne (hne u k' (by rw [hu]; rfl))]
      exact k.verdict u r k' st hu

end Held

theorem Change.held (c : Change s chains a s' chains') (k : Held s.blk s.calls) :
    Held s'.blk s'.calls := by
  cases c with
  | ticked => exact k
  | called hc => exact k.go_on hc.symm nofun
  | reserved hc | unreserved hc | refused hc => exact k.go_on (by rw [hc]; rfl) nofun
  | submitted hc hfr => exact k.enter (by rw [hc]; rfl) hfr
  | waited hc =>
    rcases hc with ⟨hc, rfl⟩ | ⟨hc, rfl⟩ | ⟨hc, rfl⟩ <;>
      exact k.go_on (by rw [hc]; rfl) nofun
  | @polled t h deadline r sl hc hsl hd =>
    refine k.go_on (by rw [hc]; rfl) fun r' h' st hf _ => ?_
    injection hf with _ hh hs
    exact ⟨sl, hh ▸ hsl, hd, hs⟩
  | expired hc =>
    refine k.go_on (by rw [hc]; rfl) fun r' h' st hf hst => ?_
    injection hf with _ _ hs
    exact absurd hs.symm hst
  | finished hc | droppedDone hc => exact k.leave (x := none) (by rw [hc]; rfl) rfl nofun rfl
  | timedOut hc | dropped hc => exact k.leave (by rw [hc]; rfl) rfl (by simp +contextual) rfl
  | handled _ hh => exact k.handled hh
  | dma => exact k.of_slots_eq rfl

theorem Inv.boot (metaPhys dataPhys : Nat) (bounce : Nat → Bytes) :
    Inv (.boot metaPhys dataPhys bounce) (List.range queueSize) [] where
  owned := .boot metaPhys dataPhys bounce
  held := ⟨nofun, nofun, nofun, nofun⟩

theorem Inv.step {free : List Nat} (i : Inv s free chains) (hst : Sys.Step s a s') :
    ∃ free' chains', Change s chains a s' chains' ∧ Inv s' free' chains' := by
  obtain ⟨free', chains', c, o⟩ := i.change hst
  exact ⟨free', chains', c, o, c.held i.held⟩

/-! ### What a step leaves alone -/

/-- The thread whose call an action advances. -/
def Act.thread? : Act → Option Nat
  | .call t _ | .reserve t _ | .advance t | .drop t => some t
  | .tick | .interrupt _ | .dma _ _ => none

theorem Change.calls_of_ne {t : Nat} (c : Change s chains a s' chains') (ht : a.thread? ≠ some t) :
    s'.calls t = s.calls t := by
  have hne : ∀ u : Nat, some u ≠ some t → ∀ x : Call, update s.calls u x t = s.calls t :=
    fun u hu x => update_of_ne (fun h => hu (congrArg some h.symm)) ..
  cases c with
  | ticked | handled | dma => rfl
  | _ => exact hne _ ht _

/-- What a run of the handler makes of a slot it does not free. -/
theorem Handled.slot_cases {d : DeviceInput} {n : Nat} {blk' : Blk} {taken : List Nat} {sl' : Slot}
    (hh : Handled d n blk chains taken blk' chains') (hsl' : blk'.slots h = some sl') :
    blk.slots h = some sl' ∨ ∃ sl, blk.slots h = some sl ∧ sl.done = false ∧ sl'.done = true := by
  induction hh with
  | nil => exact .inl hsl'
  | skipped _ _ ih => exact ih hsl'
  | @landed blk _ _ _ _ h' _ _ sl _ _ hsl _ hu _ _ _ _ _ ih =>
    rcases eq_or_ne h h' with rfl | hne
    · refine .inr ⟨sl, hsl, hu, ?_⟩
      rcases ih hsl' with hs | ⟨sl₁, hsl₁, hundone₁, -⟩
      · exact Option.some.inj ((update_self h _ blk.slots).symm.trans hs) ▸ rfl
      · cases (update_self h _ blk.slots).symm.trans hsl₁
        cases hundone₁
    · rw [← update_of_ne hne _ blk.slots]
      exact ih hsl'
  | @freed blk _ _ _ _ _ _ h' _ _ _ _ _ hsl _ _ _ _ _ _ _ _ ih =>
    rcases eq_or_ne h h' with rfl | hne
    · rcases ih hsl' with hs | ⟨sl₁, hsl₁, -, -⟩
      · cases (update_self h _ blk.slots).symm.trans hs
      · cases (update_self h _ blk.slots).symm.trans hsl₁
    · rw [← update_of_ne hne _ blk.slots]
      exact ih hsl'

section Slots

variable {s s' : Sys} {a : Act} {chains chains' : List (List Nat)} {h : Nat}

variable (c : Change s chains a s' chains')

include c

/-- A slot is published in a free place, goes on with the verdict it has, or becomes
done, which takes the handler. -/
theorem Change.slot_cases {sl' : Slot}
    (hsl' : s'.blk.slots h = some sl') :
    s.blk.slots h = none ∧ sl'.done = false ∨
      (∃ sl, s.blk.slots h = some sl ∧ sl'.done = sl.done ∧ sl'.status = sl.status ∧
        sl'.len = sl.len) ∨
      (∃ d, a = .interrupt d) ∧ ∃ sl, s.blk.slots h = some sl ∧ sl.done = false ∧
        sl'.done = true := by
  have hg : ∀ {k : Nat},
      update s.blk.slots k ((s.blk.slots k).map ({ · with abandoned := true })) h = some sl' →
      ∃ sl, s.blk.slots h = some sl ∧ sl'.done = sl.done ∧ sl'.status = sl.status ∧
        sl'.len = sl.len := by
    intro k hk
    rw [update_apply] at hk
    split_ifs at hk with hne
    · subst hne
      obtain ⟨sl, hsl, rfl⟩ := Option.map_eq_some_iff.mp hk
      exact ⟨sl, hsl, rfl, rfl, rfl⟩
    · exact ⟨sl', hk, rfl, rfl, rfl⟩
  have hf : ∀ {k : Nat}, update s.blk.slots k none h = some sl' → s.blk.slots h = some sl' := by
    exact fun hk => eq_of_update id hk nofun
  cases c with
  | @submitted _ _ h' _ _ _ _ hfr =>
    rcases eq_or_ne h h' with rfl | hne
    · cases (update_self h _ s.blk.slots).symm.trans hsl'
      exact .inl ⟨hfr, rfl⟩
    · exact .inr (.inl ⟨sl', (update_of_ne hne _ s.blk.slots).symm.trans hsl', rfl, rfl, rfl⟩)
  | finished | droppedDone => exact .inr (.inl ⟨sl', hf hsl', rfl, rfl, rfl⟩)
  | timedOut | dropped => exact .inr (.inl (hg hsl'))
  | @handled d _ _ _ _ hh =>
    rcases hh.slot_cases hsl' with hs | hnew
    · exact .inr (.inl ⟨sl', hs, rfl, rfl, rfl⟩)
    · exact .inr (.inr ⟨⟨d, rfl⟩, hnew⟩)
  | _ => exact .inr (.inl ⟨sl', hsl', rfl, rfl, rfl⟩)

theorem Change.ticks_le : s.ticks ≤ s'.ticks := by
  cases c with
  | ticked => exact Nat.le_succ _
  | _ => exact le_rfl

theorem Change.panicked_eq : s'.panicked = s.panicked := by
  cases c <;> rfl

end Slots

end Qunix.Block
