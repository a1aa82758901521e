/-
What a run queue is for: the threads that wait, in the order they arrived, each
with its priority.

Next is the earliest of the highest priority there is; a thief gets the latest of
it; a thread is in the list once. `queue_refines` says that the three bands of
`RunQueue` behave exactly so, call by call and answer by answer, and that a queue
with runnable threads gives no idle thread away.
-/

import Mathlib.Algebra.Order.Group.Nat
import Mathlib.Data.List.Nodup
import Qunix.Lib.Bands
import Qunix.Lib.Run
import Qunix.Sched.Policy

namespace Qunix.Sched

open Qunix.Lib

theorem Priority.raw_injective : Function.Injective Priority.raw := by
  intro p p' h
  cases p <;> cases p' <;> first | rfl | cases h

/-- Idle below normal below high. -/
instance : LinearOrder Priority := LinearOrder.lift' Priority.raw Priority.raw_injective

/-! ### The list -/

abbrev Arrivals := List (ThreadId × Priority)

/-- A call of a run queue, with its answer. -/
inductive QueueEvent where
  | push (id : ThreadId) (prio : Priority)
  | pop (result : Option ThreadId)
  | steal (result : Option ThreadId)
  | remove (id : ThreadId) (found : Bool)
deriving DecidableEq, Repr

namespace Arrivals

def ids (a : Arrivals) : List ThreadId := a.map Prod.fst

inductive Step : Arrivals → QueueEvent → Arrivals → Prop where
  | queued {a : Arrivals} {id : ThreadId} {prio : Priority} :
      id ∈ a.ids → Step a (.push id prio) a
  | arrive {a : Arrivals} {id : ThreadId} {prio : Priority} :
      id ∉ a.ids → Step a (.push id prio) (a ++ [(id, prio)])
  /-- The earliest of the highest priority. -/
  | pop {before after : Arrivals} {id : ThreadId} {prio : Priority} :
      (∀ e ∈ before, e.2 < prio) → (∀ e ∈ after, e.2 ≤ prio) →
      Step (before ++ (id, prio) :: after) (.pop (some id)) (before ++ after)
  | popEmpty : Step [] (.pop none) []
  /-- The latest of the highest priority. -/
  | steal {before after : Arrivals} {id : ThreadId} {prio : Priority} :
      (∀ e ∈ before, e.2 ≤ prio) → (∀ e ∈ after, e.2 < prio) →
      Step (before ++ (id, prio) :: after) (.steal (some id)) (before ++ after)
  | stealEmpty : Step [] (.steal none) []
  | remove {before after : Arrivals} {id : ThreadId} {prio : Priority} :
      Step (before ++ (id, prio) :: after) (.remove id true) (before ++ after)
  | absent {a : Arrivals} {id : ThreadId} : id ∉ a.ids → Step a (.remove id false) a

end Arrivals

/-! ### The queue's calls -/

inductive QueueOp where
  | push (id : ThreadId) (prio : Priority)
  | pop
  | steal
  | remove (id : ThreadId)
deriving DecidableEq, Repr

namespace RunQueue

def perform (q : RunQueue) : QueueOp → QueueEvent × RunQueue
  | .push id prio => (.push id prio, q.push id prio)
  | .pop =>
    match q.pop with
    | some (id, q') => (.pop (some id), q')
    | none => (.pop none, q)
  | .steal =>
    match q.steal with
    | some (id, q') => (.steal (some id), q')
    | none => (.steal none, q)
  | .remove id => (.remove id (q.remove id).1, (q.remove id).2)

def Step (q : RunQueue) (event : QueueEvent) (q' : RunQueue) : Prop :=
  ∃ op, q.perform op = (event, q')

def bandOf (q : RunQueue) : Priority → List ThreadId
  | .high => q.high
  | .normal => q.normal
  | .idle => q.idle

def withBand (q : RunQueue) : Priority → List ThreadId → RunQueue
  | .high, l => { q with high := l }
  | .normal, l => { q with normal := l }
  | .idle, l => { q with idle := l }

variable {q q' : RunQueue} {id : ThreadId} {prio : Priority}

theorem bandOf_withBand (q : RunQueue) (prio prio' : Priority) (l : List ThreadId) :
    (q.withBand prio l).bandOf prio' = if prio' = prio then l else q.bandOf prio' := by
  cases prio <;> cases prio' <;> rfl

theorem mem_ids_iff : id ∈ q.ids ↔ ∃ prio, id ∈ q.bandOf prio := by
  simp only [ids, List.mem_append]
  constructor
  · rintro ((h | h) | h)
    · exact ⟨.high, h⟩
    · exact ⟨.normal, h⟩
    · exact ⟨.idle, h⟩
  · rintro ⟨prio, h⟩
    cases prio with
    | idle => exact .inr h
    | normal => exact .inl (.inr h)
    | high => exact .inl (.inl h)

/-- One band loses one thread, and the others stay. -/
structure Loses (q q' : RunQueue) (prio : Priority) (before : List ThreadId) (id : ThreadId)
    (after : List ThreadId) : Prop where
  old : q.bandOf prio = before ++ id :: after
  new : q'.bandOf prio = before ++ after
  others : ∀ prio', prio' ≠ prio → q'.bandOf prio' = q.bandOf prio'

theorem Loses.withBand (q : RunQueue) (prio : Priority) (before after : List ThreadId)
    (h : q.bandOf prio = before ++ id :: after) :
    Loses q (q.withBand prio (before ++ after)) prio before id after := by
  constructor
  · exact h
  · rw [bandOf_withBand, if_pos rfl]
  · intro prio' hne
    rw [bandOf_withBand, if_neg hne]

theorem Loses.dropLast (q : RunQueue) (prio : Priority) (h : (q.bandOf prio).getLast? = some id) :
    Loses q (q.withBand prio (q.bandOf prio).dropLast) prio (q.bandOf prio).dropLast id [] := by
  have hla := (List.dropLast_append_getLast? id h).symm
  have hl := Loses.withBand _ _ _ _ hla
  rwa [List.append_nil] at hl

theorem Loses.erase (q : RunQueue) (prio : Priority) (h : id ∈ q.bandOf prio) :
    ∃ before after, Loses q (q.withBand prio ((q.bandOf prio).erase id)) prio before id after := by
  obtain ⟨before, after, -, hold, hnew⟩ := List.exists_erase_eq h
  rw [hnew]
  exact ⟨before, after, .withBand _ _ _ _ hold⟩

theorem push_bandOf (hnew : id ∉ q.ids) (prio' : Priority) :
    (q.push id prio).bandOf prio' = q.bandOf prio' ++ if prio' = prio then [id] else [] := by
  have hc : q.contains id = false := by simpa [contains] using hnew
  cases prio <;> cases prio' <;> simp [push, hc, RunQueue.bandOf]

/-- The highest band of a queue with runnable threads is not the idle one. -/
theorem ne_idle_of_runnable (hrun : q.runnableLen ≠ 0)
    (htop : ∀ prio', prio < prio' → q.bandOf prio' = []) : prio ≠ .idle := by
  rintro rfl
  have hh := htop .high (by decide)
  have hn := htop .normal (by decide)
  simp only [bandOf] at hh hn
  exact hrun (by rw [runnableLen, hh, hn]; rfl)

variable {before after : List ThreadId} {x : ThreadId} {prio' : Priority}

section

variable (h : Loses q q' prio before id after)

include h

theorem Loses.mem (hx : x ∈ q'.bandOf prio') :
    x ∈ q.bandOf prio' := by
  rcases eq_or_ne prio' prio with rfl | hp
  · rw [h.new] at hx
    rw [h.old]
    rcases List.mem_append.mp hx with hx | hx
    · exact List.mem_append_left _ hx
    · exact List.mem_append_right _ (List.mem_cons_of_mem _ hx)
  · rwa [h.others prio' hp] at hx

theorem Loses.mem_self :
    id ∈ q.bandOf prio := by
  rw [h.old]
  exact List.mem_append_right _ List.mem_cons_self

theorem Loses.count :
    q.count x = q'.count x + if id = x then 1 else 0 := by
  have hb : (q.bandOf prio).count x = (q'.bandOf prio).count x + if id = x then 1 else 0 := by
    simp only [h.old, h.new, List.count_append, List.count_cons, beq_iff_eq]
    omega
  have ho : ∀ prio', prio' ≠ prio → (q'.bandOf prio').count x = (q.bandOf prio').count x :=
    fun prio' hne => by rw [h.others prio' hne]
  have hh := ho .high
  have hn := ho .normal
  have hi := ho .idle
  cases prio <;> simp [bandOf, RunQueue.count, ids] at hb hh hn hi ⊢ <;> omega

end

theorem mem_push (h : x ∈ (q.push id prio).bandOf prio') :
    x ∈ q.bandOf prio' ∨ x = id ∧ prio' = prio := by
  by_cases hmem : id ∈ q.ids
  · have hc : q.contains id = true := by simpa [contains] using hmem
    simp only [push, hc] at h
    exact .inl h
  · rw [push_bandOf hmem] at h
    rcases List.mem_append.mp h with h | h
    · exact .inl h
    · split_ifs at h with hp
      · exact .inr ⟨List.mem_singleton.mp h, hp⟩
      · cases h

theorem pop_spec (h : q.pop = some (id, q')) :
    ∃ prio after, Loses q q' prio [] id after ∧ ∀ prio', prio < prio' → q.bandOf prio' = [] := by
  obtain ⟨high, normal, idle⟩ := q
  unfold pop at h
  split at h
  · rename_i heq
    cases heq
    cases h
    refine ⟨.high, _, .withBand _ .high [] _ rfl, ?_⟩
    intro prio' hlt
    exact absurd hlt (by cases prio' <;> decide)
  · rename_i heq
    cases heq
    cases h
    refine ⟨.normal, _, .withBand _ .normal [] _ rfl, ?_⟩
    intro prio' hlt
    cases prio' with
    | high => rfl
    | normal | idle => exact absurd hlt (by decide)
  · rename_i heq
    cases heq
    cases h
    refine ⟨.idle, _, .withBand _ .idle [] _ rfl, ?_⟩
    intro prio' hlt
    cases prio' with
    | high | normal => rfl
    | idle => exact absurd hlt (by decide)
  · cases h

theorem pop_eq_none (h : q.pop = none) (prio : Priority) : q.bandOf prio = [] := by
  unfold pop at h
  split at h
  · cases h
  · cases h
  · cases h
  · rename_i heq
    cases heq
    cases prio <;> rfl

theorem steal_spec (h : q.steal = some (id, q')) :
    ∃ prio before, Loses q q' prio before id [] ∧ ∀ prio', prio < prio' → q.bandOf prio' = [] := by
  unfold steal at h
  split at h
  · rename_i hl
    cases h
    refine ⟨.high, _, .dropLast q .high hl, ?_⟩
    intro prio' hlt
    exact absurd hlt (by cases prio' <;> decide)
  · rename_i hh hl
    cases h
    refine ⟨.normal, _, .dropLast q .normal hl, ?_⟩
    intro prio' hlt
    cases prio' with
    | high => exact List.getLast?_eq_none_iff.mp hh
    | normal | idle => exact absurd hlt (by decide)
  · rename_i hh hn hl
    cases h
    refine ⟨.idle, _, .dropLast q .idle hl, ?_⟩
    intro prio' hlt
    cases prio' with
    | high => exact List.getLast?_eq_none_iff.mp hh
    | normal => exact List.getLast?_eq_none_iff.mp hn
    | idle => exact absurd hlt (by decide)
  · cases h

theorem steal_eq_none (h : q.steal = none) (prio : Priority) : q.bandOf prio = [] := by
  unfold steal at h
  split at h
  · cases h
  · cases h
  · cases h
  · rename_i hh hn hi
    cases prio with
    | idle => exact List.getLast?_eq_none_iff.mp hi
    | normal => exact List.getLast?_eq_none_iff.mp hn
    | high => exact List.getLast?_eq_none_iff.mp hh

theorem remove_spec (h : q.remove id = (true, q')) :
    ∃ prio before after, Loses q q' prio before id after := by
  unfold remove at h
  split at h
  · rename_i hmem
    cases h
    exact ⟨.idle, Loses.erase q .idle hmem⟩
  · split at h
    · rename_i hmem
      cases h
      exact ⟨.normal, Loses.erase q .normal hmem⟩
    · split at h
      · rename_i hmem
        cases h
        exact ⟨.high, Loses.erase q .high hmem⟩
      · cases h

theorem remove_absent (h : q.remove id = (false, q')) : q' = q ∧ id ∉ q.ids := by
  unfold remove at h
  split at h
  · cases h
  · split at h
    · cases h
    · split at h
      · cases h
      · rename_i hi hn hh
        cases h
        simp [ids, hi, hn, hh]

end RunQueue

/-! ### The refinement -/

/-- The bands hold the threads of the list, each band those of its priority. -/
structure Shows (q : RunQueue) (a : Arrivals) : Prop where
  bands : ∀ prio, q.bandOf prio = (band Prod.snd a prio).map Prod.fst
  nodup : a.ids.Nodup

namespace Shows

variable {q q' : RunQueue} {a : Arrivals} {id : ThreadId} {prio : Priority}
  {before after : List ThreadId}

theorem empty : Shows .empty [] := by
  constructor
  · intro prio
    cases prio <;> rfl
  · exact List.nodup_nil

section

variable (h : Shows q a)

include h

theorem mem_ids : id ∈ q.ids ↔ id ∈ a.ids := by
  simp only [RunQueue.mem_ids_iff, h.bands, Arrivals.ids, List.mem_map, mem_band]
  constructor
  · rintro ⟨prio, e, ⟨he, -⟩, rfl⟩
    exact ⟨e, he, rfl⟩
  · rintro ⟨e, he, rfl⟩
    exact ⟨e.2, e, ⟨he, rfl⟩, rfl⟩

theorem eq_nil (hnil : ∀ prio, q.bandOf prio = []) : a = [] := by
  cases a with
  | nil => rfl
  | cons e a =>
    have hb := h.bands e.2
    rw [hnil, band_cons, if_pos rfl] at hb
    cases hb

theorem lt_of_bandOf_eq_nil (htop : ∀ prio', prio < prio' → q.bandOf prio' = []) :
    ∀ e ∈ a, e.2 ≤ prio := by
  intro e he
  by_contra hlt
  have hnil := htop e.2 (not_le.mp hlt)
  rw [h.bands, List.map_eq_nil_iff, band_eq_nil_iff] at hnil
  exact hnil e he rfl

theorem loses (hl : RunQueue.Loses q q' prio before id after) :
    ∃ l₁ l₂, a = l₁ ++ (id, prio) :: l₂ ∧ (band Prod.snd l₁ prio).map Prod.fst = before ∧
      (band Prod.snd l₂ prio).map Prod.fst = after ∧ Shows q' (l₁ ++ l₂) := by
  have hba := h.bands prio
  rw [hl.old] at hba
  obtain ⟨L₁, L, hL, hb, hr⟩ := List.map_eq_append_iff.mp hba.symm
  obtain ⟨e, L₂, rfl, rfl, ha⟩ := List.map_eq_cons_iff.mp hr
  have he : e ∈ band Prod.snd a prio := by
    rw [hL]
    exact List.mem_append_right _ List.mem_cons_self
  obtain ⟨-, rfl⟩ := mem_band.mp he
  obtain ⟨l₁, l₂, rfl, hl₁, hl₂, ho⟩ := exists_split hL
  refine ⟨l₁, l₂, rfl, by rw [hl₁, hb], by rw [hl₂, ha], ?_, ?_⟩
  · intro prio'
    rcases eq_or_ne prio' e.2 with rfl | hp
    · rw [hl.new, band_append, List.map_append, hl₁, hl₂, hb, ha]
    · rw [hl.others prio' hp, ho prio' hp, h.bands]
  · have hsub : (l₁ ++ l₂).Sublist (l₁ ++ e :: l₂) :=
      (List.Sublist.refl l₁).append (List.sublist_cons_self e l₂)
    exact h.nodup.sublist (hsub.map Prod.fst)

theorem push :
    ∃ a', Arrivals.Step a (.push id prio) a' ∧ Shows (q.push id prio) a' := by
  by_cases hmem : id ∈ q.ids
  · refine ⟨a, .queued (h.mem_ids.mp hmem), ?_⟩
    have hc : q.contains id = true := by simpa [RunQueue.contains] using hmem
    simp only [RunQueue.push, hc]
    exact h
  · have hnew : id ∉ a.ids := fun hid => hmem (h.mem_ids.mpr hid)
    refine ⟨_, .arrive hnew, ?_, ?_⟩
    · intro prio'
      rw [RunQueue.push_bandOf hmem, h.bands, band_append, List.map_append, band_cons]
      by_cases hp : prio' = prio
      · rw [if_pos hp, if_pos hp.symm]
        rfl
      · rw [if_neg hp, if_neg (Ne.symm hp)]
        rfl
    · rw [Arrivals.ids, List.map_append]
      exact h.nodup.append (List.nodup_singleton id) (by simpa using hnew)

theorem pop (hp : q.pop = some (id, q')) :
    ∃ a', Arrivals.Step a (.pop (some id)) a' ∧ Shows q' a' := by
  obtain ⟨prio, after, hl, htop⟩ := RunQueue.pop_spec hp
  have hle := h.lt_of_bandOf_eq_nil htop
  obtain ⟨l₁, l₂, rfl, hb, -, hs⟩ := h.loses hl
  suffices hst : Arrivals.Step (l₁ ++ (id, prio) :: l₂) (.pop (some id)) (l₁ ++ l₂) from
    ⟨_, hst, hs⟩
  apply Arrivals.Step.pop
  · intro e he
    rw [List.map_eq_nil_iff, band_eq_nil_iff] at hb
    exact lt_of_le_of_ne (hle e (List.mem_append_left _ he)) (hb e he)
  · intro e he
    exact hle e (List.mem_append_right _ (List.mem_cons_of_mem _ he))

theorem steal (hs : q.steal = some (id, q')) :
    ∃ a', Arrivals.Step a (.steal (some id)) a' ∧ Shows q' a' := by
  obtain ⟨prio, before, hl, htop⟩ := RunQueue.steal_spec hs
  have hle := h.lt_of_bandOf_eq_nil htop
  obtain ⟨l₁, l₂, rfl, -, ha, hsh⟩ := h.loses hl
  suffices hst : Arrivals.Step (l₁ ++ (id, prio) :: l₂) (.steal (some id)) (l₁ ++ l₂) from
    ⟨_, hst, hsh⟩
  apply Arrivals.Step.steal
  · intro e he
    exact hle e (List.mem_append_left _ he)
  · intro e he
    rw [List.map_eq_nil_iff, band_eq_nil_iff] at ha
    exact lt_of_le_of_ne (hle e (List.mem_append_right _ (List.mem_cons_of_mem _ he)))
      (ha e he)

theorem step {event : QueueEvent} (hst : RunQueue.Step q event q') :
    ∃ a', Arrivals.Step a event a' ∧ Shows q' a' := by
  obtain ⟨op, hop⟩ := hst
  cases op with
  | push id prio =>
    cases hop
    exact h.push
  | pop =>
    simp only [RunQueue.perform] at hop
    split at hop
    · rename_i id q₁ hpop
      cases hop
      exact h.pop hpop
    · rename_i hpop
      cases hop
      obtain rfl := h.eq_nil (RunQueue.pop_eq_none hpop)
      exact ⟨[], .popEmpty, h⟩
  | steal =>
    simp only [RunQueue.perform] at hop
    split at hop
    · rename_i id q₁ hs
      cases hop
      exact h.steal hs
    · rename_i hs
      cases hop
      obtain rfl := h.eq_nil (RunQueue.steal_eq_none hs)
      exact ⟨[], .stealEmpty, h⟩
  | remove id =>
    cases hrem : q.remove id with
    | mk found q₁ =>
      simp only [RunQueue.perform, hrem] at hop
      cases hop
      cases found with
      | true =>
        obtain ⟨prio, before, after, hl⟩ := RunQueue.remove_spec hrem
        obtain ⟨l₁, l₂, rfl, -, -, hsh⟩ := h.loses hl
        exact ⟨_, .remove, hsh⟩
      | false =>
        obtain ⟨rfl, hnot⟩ := RunQueue.remove_absent hrem
        exact ⟨a, .absent fun hid => hnot (h.mem_ids.mpr hid), h⟩

/-- A thread taken from the highest band of a queue with runnable threads is not
queued at idle. -/
theorem not_idle (hrun : q.runnableLen ≠ 0)
    (hl : RunQueue.Loses q q' prio before id after)
    (htop : ∀ prio', prio < prio' → q.bandOf prio' = []) : (id, Priority.idle) ∉ a := by
  intro hi
  have hne := RunQueue.ne_idle_of_runnable hrun htop
  obtain ⟨l₁, l₂, rfl, -, -, -⟩ := h.loses hl
  have hmem : (id, prio) ∈ l₁ ++ (id, prio) :: l₂ :=
    List.mem_append_right _ List.mem_cons_self
  have heq := List.inj_on_of_nodup_map h.nodup hmem hi rfl
  exact hne (Prod.mk.inj heq).2

end

end Shows

/-- Whatever is called, the queue answers as the list of arrivals does, its bands are
the list's, and with a runnable thread in it neither `pop` nor `steal` returns one
that is queued at idle. -/
theorem queue_refines {events : List QueueEvent} {q : RunQueue}
    (hrun : Run RunQueue.Step .empty events q) :
    ∃ a, Run Arrivals.Step [] events a ∧ a.ids.Nodup ∧
      (∀ prio, q.bandOf prio = (band Prod.snd a prio).map Prod.fst) ∧
      (q.runnableLen ≠ 0 → ∀ id q', q.pop = some (id, q') ∨ q.steal = some (id, q') →
        (id, Priority.idle) ∉ a) := by
  have hsim : ∀ q event q' a, Shows q a → RunQueue.Step q event q' →
      ∃ a', Arrivals.Step a event a' ∧ Shows q' a' := by
    intro q event q' a h hst
    exact h.step hst
  obtain ⟨a, hrun', h⟩ := hrun.simulate hsim Shows.empty
  refine ⟨a, hrun', h.nodup, h.bands, ?_⟩
  rintro hne id q' (hpop | hsteal)
  · obtain ⟨prio, after, hl, htop⟩ := RunQueue.pop_spec hpop
    exact h.not_idle hne hl htop
  · obtain ⟨prio, before, hl, htop⟩ := RunQueue.steal_spec hsteal
    exact h.not_idle hne hl htop

/-- A thread queued again at another priority keeps its place; the thief gets the latest
of the normal threads, the owner the earliest, and the idle thread comes last. -/
theorem queue_refines_mixed :
    ∃ a, Run Arrivals.Step []
      [.push ⟨1⟩ .normal, .push ⟨9⟩ .idle, .push ⟨2⟩ .normal, .push ⟨3⟩ .normal, .push ⟨1⟩ .high,
        .remove ⟨2⟩ true, .remove ⟨2⟩ false, .steal (some ⟨3⟩), .pop (some ⟨1⟩), .pop (some ⟨9⟩),
        .push ⟨4⟩ .high] a ∧
      RunQueue.bandOf ⟨[⟨4⟩], [], []⟩ .high = (band Prod.snd a .high).map Prod.fst := by
  have hrun : Run RunQueue.Step .empty
      [.push ⟨1⟩ .normal, .push ⟨9⟩ .idle, .push ⟨2⟩ .normal, .push ⟨3⟩ .normal, .push ⟨1⟩ .high,
        .remove ⟨2⟩ true, .remove ⟨2⟩ false, .steal (some ⟨3⟩), .pop (some ⟨1⟩), .pop (some ⟨9⟩),
        .push ⟨4⟩ .high] ⟨[⟨4⟩], [], []⟩ :=
    .cons ⟨.push ⟨1⟩ .normal, rfl⟩ <| .cons ⟨.push ⟨9⟩ .idle, rfl⟩ <|
      .cons ⟨.push ⟨2⟩ .normal, rfl⟩ <| .cons ⟨.push ⟨3⟩ .normal, rfl⟩ <|
      .cons ⟨.push ⟨1⟩ .high, rfl⟩ <| .cons ⟨.remove ⟨2⟩, rfl⟩ <| .cons ⟨.remove ⟨2⟩, rfl⟩ <|
      .cons ⟨.steal, rfl⟩ <| .cons ⟨.pop, rfl⟩ <| .cons ⟨.pop, rfl⟩ <|
      .cons ⟨.push ⟨4⟩ .high, rfl⟩ <| .nil _
  obtain ⟨a, hrun', -, hbands, -⟩ := queue_refines hrun
  exact ⟨a, hrun', hbands .high⟩

end Qunix.Sched
