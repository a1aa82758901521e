/-
How a call of `sync` goes on.

A call keeps the mask it computed on entry, works on slots of that mask only, and
remembers a failure as soon as one of its slots has failed (`SyncCall.Owing`); this
holds in every state (`call_step`). A call that returns `Ok` has seen every slot of its
mask free of unsynced bytes (`syncOk_spec`).
-/

import Qunix.BufferCache.History

namespace Qunix.BufferCache

open Function Qunix.Lib

variable {N : Nat}

/-- The await of `read_at` or `write_at`. -/
def Task.awaitsDevice : Task N → Bool
  | .fill _ _ | .writing _ _ _ => true
  | _ => false

/-- What the local variables of `sync` have in common at every await. -/
structure SyncCall.Owing (y : SyncCall N) (at? : Option (Fin N)) : Prop where
  sober : y.failure = none → ∀ i, y.failed i = false
  pending : ∀ i ∈ y.pending, y.owed i = true
  standing : ∀ i, at? = some i → y.owed i = true

namespace SyncCall

variable {y y' : SyncCall N} {o o' : Option (Fin N)} {slot : Fin N} {m : Fin N → Bool}

theorem Owing.leave (h : y.Owing o) : y.Owing none := ⟨h.sober, h.pending, nofun⟩

theorem Owing.record (h : y.Owing o) (slot : Fin N) (outcome : Except BlockError Unit) :
    (y.record slot outcome).Owing none := by
  cases outcome with
  | ok u => exact ⟨h.sober, h.pending, nofun⟩
  | error e => exact ⟨nofun, h.pending, nofun⟩

theorem owed_record (slot : Fin N) (outcome : Except BlockError Unit) :
    (y.record slot outcome).owed = y.owed := by
  cases outcome <;> rfl

theorem call_turn (h : y.Owing none) (hc : y.turn.call = some (y', o)) :
    y'.owed = y.owed ∧ y'.Owing o := by
  unfold turn at hc
  split at hc
  · rename_i slot rest hp
    cases hc
    refine ⟨rfl, h.sober, fun i hi => ?_, fun i hi => ?_⟩
    · exact h.pending i (by rw [hp]; exact List.mem_cons_of_mem _ hi)
    · exact h.pending i (by rw [hp, Option.some.inj hi]; exact List.mem_cons_self)
  · split at hc
    · cases hc
      exact ⟨rfl, h.sober, h.pending, nofun⟩
    · simp only at hc
      split at hc
      · cases hc
      · cases hc
        exact ⟨rfl, h.sober, h.pending, nofun⟩

theorem call_startRound (h : y.Owing o) (hc : (y.startRound m).call = some (y', o')) :
    y'.owed = y.owed ∧ y'.Owing o' := by
  unfold startRound at hc
  simp only at hc
  split at hc
  · split at hc <;> cases hc
  · refine call_turn (y := { y with
      pending := (List.finRange N).filter fun i => y.owed i && m i && !y.failed i
      acted := false }) ⟨h.sober, fun i hi => ?_, nofun⟩ hc
    simp only [List.mem_filter, Bool.and_eq_true] at hi
    exact hi.2.1.1

theorem turn_ne_ok (y : SyncCall N) : y.turn ≠ .done (.ok ()) := by
  unfold turn
  split
  · nofun
  · split
    · nofun
    · simp only
      split <;> nofun

/-- A call returns `Ok` when it has nothing left to write and no failure. -/
theorem startRound_eq_ok (h : y.startRound m = .done (.ok ())) :
    y.failure = none ∧ ∀ i, y.owed i = true → m i = true → y.failed i = true := by
  unfold startRound at h
  simp only at h
  split_ifs at h with hn
  · split at h
    · cases h
    · rename_i hf
      refine ⟨hf, fun i ho hm => ?_⟩
      have := List.filter_eq_nil_iff.mp hn i (List.mem_finRange i)
      simpa [ho, hm] using this
  · exact absurd h (turn_ne_ok _)

end SyncCall

/-! ### Steps -/

namespace Sys

variable {s s' : Sys N} {a : Act N} {t u : Nat} {y y' : SyncCall N} {o o' : Option (Fin N)}

/-- Thread `t` went on from `s` to `s'`, and is not in a `sync` unless it was, or
has just computed its mask. -/
def Goes (s s' : Sys N) (t : Nat) : Prop :=
  ∃ task, s'.tasks = update s.tasks t task ∧
    ((s.tasks t).call = none → s.tasks t ≠ .owed → task.call = none)

theorem Goes.mk {task : Task N} (h : s'.tasks = update s.tasks t task)
    (hc : (s.tasks t).call = none → s.tasks t ≠ .owed → task.call = none) : Goes s s' t :=
  ⟨task, h, hc⟩

theorem Goes.stop (why : Panic) : Goes s (s.stop why) t :=
  ⟨s.tasks t, (update_eq_self ..).symm, fun h _ => h⟩

theorem goes_advance (hs : s.advance t = some s') : Goes s s' t := by
  have hc : ∀ {task : Task N}, s.tasks t = task → task.call ≠ none → ∀ task' : Task N,
      (s.tasks t).call = none → s.tasks t ≠ .owed → task'.call = none :=
    fun ht h _ hn => absurd (ht ▸ hn) h
  cases section_of_advance hs with
  | moves hm =>
    obtain ⟨task, rfl, -, -, -, hn⟩ := hm
    exact .mk rfl hn
  | claim | store | finishFill =>
    simp only [claim, store, finishFill]
    repeat' split
    all_goals first | exact .stop _ | exact .mk rfl fun _ _ => rfl
  | beginWriteback ht | submit ht =>
    rename_i f _
    simp only [beginWriteback, submit]
    repeat' split
    all_goals cases f with
      | room k => first | exact .stop _ | exact .mk rfl fun _ _ => rfl
      | sync y => first | exact .stop _ | exact .mk rfl (hc ht (by simp [Task.call]) _)
  | @finishWriteback f w outcome ht =>
    unfold finishWriteback
    repeat' split
    all_goals cases f with
      | room k =>
        cases outcome <;> first | exact .stop _ | exact .mk rfl fun _ _ => call_resume k |
          exact .mk rfl fun _ _ => rfl
      | sync y => first | exact .stop _ | exact .mk rfl (hc ht (by simp [Task.call]) _)

theorem call_advance (hs : s.advance t = some s') (hc : (s.tasks t).call = some (y, o))
    (hc' : (s'.tasks t).call = some (y', o')) (h : y.Owing o) :
    y'.owed = y.owed ∧ y'.Owing o' := by
  have hsa : ∀ {task : Task N}, s.tasks t = task → task.call = some (y', o') →
      y'.owed = y.owed ∧ y'.Owing o' := by
    intro task ht hst
    obtain ⟨rfl, rfl⟩ := Prod.mk.inj (Option.some.inj ((ht ▸ hc).symm.trans hst))
    exact ⟨rfl, h⟩
  unfold advance at hs
  generalize ht : s.tasks t = task at hs hc
  cases task with
  | begin f slot =>
    cases f with
    | room k => cases hc
    | sync z =>
      cases hc
      cases hs
      unfold beginWriteback at hc'
      split at hc'
      · rw [notBegun, tasks_setTask, update_self] at hc'
        exact SyncCall.call_turn h.leave hc'
      · split at hc'
        · exact hsa ht (by rwa [tasks_stop, ht] at hc')
        · rw [notBegun, tasks_setTask, update_self] at hc'
          exact SyncCall.call_turn h.leave hc'
        · rename_i b _ w b' hb
          rw [tasks_setTask, update_self] at hc'
          obtain ⟨rfl, rfl⟩ := Prod.mk.inj (Option.some.inj hc')
          rcases Bcache.beginWriteback_eq_ok hb with ⟨hn, -⟩ | ⟨-, hso, -⟩
          · cases hn
          · cases hso
            exact ⟨rfl, h⟩
  | submit f w =>
    cases f with
    | room k => cases hc
    | sync z =>
      cases hc
      cases hs
      unfold submit at hc'
      split at hc'
      · exact hsa ht (by rwa [tasks_stop, ht] at hc')
      · rw [tasks_setTask, update_self] at hc'
        obtain ⟨rfl, rfl⟩ := Prod.mk.inj (Option.some.inj hc')
        exact ⟨rfl, h⟩
      · exact hsa ht (by rwa [tasks_stop, ht] at hc')
  | written f w outcome =>
    cases f with
    | room k => cases hc
    | sync z =>
      cases hc
      cases hs
      unfold finishWriteback at hc'
      split at hc'
      · exact hsa ht (by rwa [tasks_stop, ht] at hc')
      · split at hc'
        · exact hsa ht (by rwa [tasks_stop, ht] at hc')
        · rw [wroteBack, tasks_setTask, update_self] at hc'
          obtain ⟨how, ho⟩ := SyncCall.call_turn (h.record _ outcome) hc'
          exact ⟨how.trans (SyncCall.owed_record ..), ho⟩
  | round z =>
    cases hc
    cases hs
    unfold syncRound at hc'
    split at hc'
    · rw [tasks_finish, update_self] at hc'
      cases hc'
    · rw [tasks_setTask, update_self] at hc'
      exact SyncCall.call_startRound h hc'
  | syncWait z =>
    cases hc
    cases hs
    rw [tasks_setTask, update_self] at hc'
    obtain ⟨rfl, rfl⟩ := Prod.mk.inj (Option.some.inj hc')
    exact ⟨rfl, h⟩
  | writing f w bytes => cases hs
  | _ => cases hc

theorem call_owed (hs : s.advance t = some s') (ht : s.tasks t = .owed)
    (hc : (s'.tasks t).call = some (y, o)) :
    ∃ b, s.cache = some b ∧ s'.tasks t = .round y ∧ y.owed = b.unsyncedMask ∧ y.Owing o := by
  simp only [advance, ht, Option.some.injEq] at hs
  obtain rfl := hs
  unfold sync at hc ⊢
  split at hc
  · rw [tasks_finish, update_self] at hc
    cases hc
  · rename_i b hca
    rw [tasks_setTask, update_self] at hc
    cases hc
    refine ⟨b, hca, ?_, rfl, fun _ _ => rfl, nofun, nofun⟩
    simp

/-- What an action that runs no section does to the tasks: a thread between two
calls begins one, one that awaits the device is answered, or one is dropped. -/
def TasksMove (s : Sys N) (a : Act N) (s' : Sys N) : Prop :=
  s'.tasks = s.tasks ∨ ∃ u task, s'.tasks = update s.tasks u task ∧
    task.awaitsDevice = false ∧ (task.call = none ∨ task.call = (s.tasks u).call) ∧
    (s.isIdle u = true ∨ (∃ outcome junk, a = .complete u outcome junk) ∨ ∃ junk, a = .drop u junk)

section

variable (hs : s.step a = some s')

include hs

theorem tasksMove_of_not_advance (ha : ∀ u, a ≠ .advance u) :
    TasksMove s a s' := by
  have hm : ∀ {s₁ : Sys N} {u : Nat} {task : Task N}, some s₁ = some s' →
      s₁.tasks = update s.tasks u task → task.awaitsDevice = false →
      (task.call = none ∨ task.call = (s.tasks u).call) →
      (s.isIdle u = true ∨ (∃ outcome junk, a = .complete u outcome junk) ∨
        ∃ junk, a = .drop u junk) → TasksMove s a s' :=
    fun heq ht hio hc hwhy =>
      .inr ⟨_, _, Option.some.inj heq ▸ ht, hio, hc, hwhy⟩
  have hsa : ∀ {s₁ : Sys N}, some s₁ = some s' → s₁.tasks = s.tasks → TasksMove s a s' :=
    fun heq ht => .inl (Option.some.inj heq ▸ ht)
  obtain ⟨-, hs⟩ := Option.ite_none_left_eq_some.mp hs
  cases a with
  | advance u => exact absurd rfl (ha u)
  | init frames =>
    refine hsa hs ?_
    unfold init
    split <;> rfl
  | tick => exact hsa hs rfl
  | readBlock | writeBlock =>
    simp only [readBlock, writeBlock] at hs
    split_ifs at hs with hi
    all_goals exact hm hs rfl rfl (.inl rfl) (.inl hi)
  | sync u =>
    simp only at hs
    split_ifs at hs with hi
    exact hm hs rfl rfl (.inl rfl) (.inl hi)
  | complete u outcome junk =>
    simp only [complete] at hs
    split at hs
    · exact hm hs rfl rfl (.inl rfl) (.inr (.inl ⟨_, _, rfl⟩))
    · rename_i f w bytes hta
      refine hm hs rfl rfl (.inr ?_) (.inr (.inl ⟨_, _, rfl⟩))
      rw [hta]
      cases f <;> rfl
    · cases hs
  | drop u junk =>
    -- The thread goes idle, unless its guard panics.
    simp only [drop] at hs
    repeat' split at hs
    all_goals first | exact hsa hs rfl |
      exact hm hs rfl rfl (.inl rfl) (.inr (.inr ⟨junk, rfl⟩)) | cases hs
  | dropRef r =>
    simp only [dropRef] at hs
    repeat' split at hs
    all_goals first | exact hsa hs rfl | cases hs

theorem call_of_not_advance (ha : ∀ u, a ≠ .advance u)
    (hc : (s'.tasks t).call = some (y, o)) : (s.tasks t).call = some (y, o) := by
  rcases tasksMove_of_not_advance hs ha with hsa | ⟨u, task, ht, -, hn | hsa, -⟩
  · rwa [hsa] at hc
  · rw [ht] at hc
    exact eq_of_update Task.call hc (by simp [hn])
  · rw [ht] at hc
    exact eq_of_update Task.call hc hsa.symm.trans

/-- A thread that awaits the device stands still until it is answered or
dropped, and a thread comes to await it by a section of its own. -/
theorem awaits_step (hc : ∀ outcome junk, a ≠ .complete u outcome junk)
    (hd : ∀ junk, a = .drop u junk → (s.tasks u).awaitsDevice = false) :
    ((s.tasks u).awaitsDevice = true → s'.tasks u = s.tasks u) ∧
      ((s'.tasks u).awaitsDevice = true → s'.tasks u = s.tasks u ∨ a = .advance u) := by
  by_cases ha : ∃ t, a = .advance t
  · obtain ⟨t, rfl⟩ := ha
    have hs := advance_of_step hs
    obtain ⟨task, hta, -⟩ := goes_advance hs
    rcases eq_or_ne u t with rfl | hut
    · refine ⟨fun hio => ?_, fun _ => .inr rfl⟩
      cases htask : s.tasks u <;> simp [htask, Task.awaitsDevice, advance] at hio hs
    · have hsa : s'.tasks u = s.tasks u := by rw [hta, update_of_ne hut]
      exact ⟨fun _ => hsa, fun _ => .inl hsa⟩
  · rcases tasksMove_of_not_advance hs fun t ht => ha ⟨t, ht⟩ with
      hsa | ⟨t, task, hta, hio, -, hwhy⟩
    · exact ⟨fun _ => by rw [hsa], fun _ => .inl (by rw [hsa])⟩
    · rcases eq_or_ne u t with rfl | hut
      · rw [hta]
        refine ⟨fun hu => ?_, fun hu => by simp [hio] at hu⟩
        rcases hwhy with hi | ⟨outcome, junk, rfl⟩ | ⟨junk, rfl⟩
        · cases htask : s.tasks u <;> simp [htask, Task.awaitsDevice, isIdle] at hu hi
        · exact absurd rfl (hc outcome junk)
        · exact nomatch (hd junk rfl).symm.trans hu
      · have hsa : s'.tasks u = s.tasks u := by rw [hta, update_of_ne hut]
        exact ⟨fun _ => hsa, fun _ => .inl hsa⟩

/-- A thread in a `sync` was in it before and has kept its mask, or has just
computed it. -/
theorem call_step (hc' : (s'.tasks t).call = some (y', o')) :
    (∃ y o, (s.tasks t).call = some (y, o) ∧ (y.Owing o → y'.owed = y.owed ∧ y'.Owing o')) ∨
      (a = .advance t ∧ s.tasks t = .owed ∧ ∃ b, s.cache = some b ∧ s'.tasks t = .round y' ∧
        y'.owed = b.unsyncedMask ∧ y'.Owing o') := by
  by_cases ha : ∃ u, a = .advance u
  · obtain ⟨u, rfl⟩ := ha
    have hs := advance_of_step hs
    obtain ⟨task, ht, hn⟩ := goes_advance hs
    rcases eq_or_ne t u with rfl | htu
    · by_cases ho : s.tasks t = .owed
      · exact .inr ⟨rfl, ho, call_owed hs ho hc'⟩
      · cases hc : (s.tasks t).call with
        | none =>
          rw [ht, update_self, hn hc ho] at hc'
          cases hc'
        | some p => exact .inl ⟨p.1, p.2, rfl, call_advance hs hc hc'⟩
    · rw [ht, update_of_ne htu] at hc'
      exact .inl ⟨y', o', hc', fun h => ⟨rfl, h⟩⟩
  · have hc := call_of_not_advance hs (fun u hu => ha ⟨u, hu⟩) hc'
    exact .inl ⟨y', o', hc, fun h => ⟨rfl, h⟩⟩

end

theorem owing_step (h : ∀ t y o, (s.tasks t).call = some (y, o) → y.Owing o)
    (hs : s.step a = some s') (hc : (s'.tasks t).call = some (y, o)) : y.Owing o := by
  rcases call_step hs hc with ⟨y₀, o₀, hcall₀, hk⟩ | ⟨-, -, b, -, -, -, ho⟩
  · exact (hk (h t y₀ o₀ hcall₀)).2
  · exact ho

theorem tasks_of_syncBegan (hs : s.step a = some s') (hb : s.event a s' = some (.syncBegan t)) :
    s'.tasks t = .owed := by
  cases shows_of_event hb
  unfold step at hs
  split_ifs at hs
  simp only at hs
  split_ifs at hs
  cases hs
  simp

/-- A `sync` returns `Ok` when no slot of its mask has bytes left to write, except
slots that failed, and there are none. -/
theorem syncOk_spec (hs : s.step a = some s') (hok : s.event a s' = some (.syncOk t)) :
    ∃ y b, s.tasks t = .round y ∧ s.cache = some b ∧ y.failure = none ∧
      ∀ i, y.owed i = true → b.unsyncedMask i = true → y.failed i = true := by
  cases shows_of_event hok with
  | @syncOk _ y _ ht hd =>
    have hs := advance_of_step hs
    simp only [advance, ht, Option.some.injEq] at hs
    subst hs
    unfold syncRound at hd
    split at hd
    · simp at hd
    · rename_i b hc
      rw [tasks_setTask, update_self] at hd
      obtain ⟨hf, hse⟩ := SyncCall.startRound_eq_ok hd
      exact ⟨y, b, ht, hc, hf, hse⟩

theorem unsyncedMask_of_dirty {b : Bcache N} {i : Fin N} {k : BlockKey} (hc : s.cache = some b)
    (hd : s.Dirty i k) : b.unsyncedMask i = true := by
  obtain ⟨x, hl⟩ := (dirty_iff hc).mp hd
  exact Bcache.unsyncedMask_iff.mpr ⟨k, x, hl⟩

/-- No slot of its mask is dirty when a `sync` returns `Ok`. -/
theorem clean_of_syncOk (h : ∀ t y o, (s.tasks t).call = some (y, o) → y.Owing o)
    (hs : s.step a = some s') (hok : s.event a s' = some (.syncOk t)) :
    ∃ y, (s.tasks t).call = some (y, none) ∧ ∀ i k, y.owed i = true → ¬ s.Dirty i k := by
  obtain ⟨y, b, ht, hca, hf, hse⟩ := syncOk_spec hs hok
  have hc : (s.tasks t).call = some (y, none) := congrArg Task.call ht
  refine ⟨y, hc, fun i k ho hd => ?_⟩
  -- A slot that is still dirty has failed, and the call has no failure.
  have hfa := hse i ho (unsyncedMask_of_dirty hca hd)
  exact nomatch ((h t y none hc).sober hf i).symm.trans hfa

end Sys

end Qunix.BufferCache
