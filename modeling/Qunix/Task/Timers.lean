/-
The timer table.

A sleep takes the first free slot of a fixed table under the table's lock; the tick
it counts from was read before the lock was taken. A slot is freed by the expiry of
its deadline, on whichever CPU gets there, or by the drop of its `Sleep`, and is free
for the next sleep at once; a `Sleep` may outlive its registration. What tells a
registration from the one that took its slot is the generation, a counter of 64 bits.

The model's steps are the locked sections, with what the code does between them. A
registration carries the number it has in the order of registrations, which no step
reads: the generation is this number reduced modulo 2^64.
-/

import Qunix.Lib.Run
import Qunix.Lib.Tally
import Qunix.Sched.Policy
import Mathlib.Algebra.GroupWithZero.Nat

namespace Qunix.Task

open Function Qunix.Lib Qunix.Sched

def capacity : Nat := 64

instance : NeZero capacity := ⟨by decide⟩

/-- One outstanding sleep. -/
structure Timer where
  deadline : UInt64
  thread : ThreadId
  generation : UInt64
  /-- Which registration this is, from boot. -/
  serial : Nat
deriving DecidableEq

/-- A future that completes once `deadline` has passed. -/
structure Sleep where
  deadline : UInt64
  slot : Option (Fin capacity)
  generation : UInt64
  /-- The thread that registered it. -/
  thread : ThreadId
  serial : Nat
deriving DecidableEq

/-- What a `Sleep` registered. -/
def Sleep.timer (sl : Sleep) : Timer := ⟨sl.deadline, sl.thread, sl.generation, sl.serial⟩

/-- `Sleep::poll`, at the tick it reads: whether it is ready. -/
def Sleep.poll (sl : Sleep) (ticks : UInt64) : Bool := decide (sl.deadline ≤ ticks)

abbrev Timers := Fin capacity → Option Timer

def saturatingAdd (a b : UInt64) : UInt64 :=
  if a.toNat + b.toNat < 2 ^ 64 then a + b else 0xffffffffffffffff

/-! ### Operations -/

/-- The first free slot. -/
def Timers.position (timers : Timers) : Option (Fin capacity) :=
  (List.finRange capacity).find? fun i => (timers i).isNone

def Timers.used (timers : Timers) : Nat :=
  capacity - ((List.finRange capacity).filter fun i => (timers i).isNone).length

/-- One turn of the loop of `expire_timers`; the second component is `woken`. -/
def expireSlot (now : UInt64) (p : Timers × List Timer) (i : Fin capacity) :
    Timers × List Timer :=
  match p.1 i with
  | some timer => if now ≥ timer.deadline then (update p.1 i none, p.2 ++ [timer]) else p
  | none => p

def Timers.expire (timers : Timers) (now : UInt64) : Timers × List Timer :=
  (List.finRange capacity).foldl (expireSlot now) (timers, [])

structure St (n : Nat) where
  ticks : UInt64
  timers : Timers
  generation : UInt64
  highWater : Nat
  /-- Calls of `try_sleep_ticks` that have read the tick and not yet taken the lock. -/
  starting : List (ThreadId × UInt64)
  /-- The `Sleep` values there are. -/
  sleeps : List Sleep
  /-- What the call of `expire_timers` on a CPU has taken and not yet unparked. -/
  waking : Fin n → List Timer
  /-- How many registrations there have been, which `expire_timers` took, and which it
  unparked. -/
  registered : Nat
  expired : List Timer
  unparked : List Timer

variable {n : Nat}

namespace St

def boot (n : Nat) : St n := ⟨0, fun _ => none, 0, 0, [], [], fun _ => [], 0, [], []⟩

/-- `try_sleep_ticks` up to the lock. -/
def begin (s : St n) (thread : ThreadId) (ticks : UInt64) : St n :=
  let deadline := saturatingAdd s.ticks ticks
  if deadline ≤ s.ticks then { s with sleeps := ⟨deadline, none, 0, thread, 0⟩ :: s.sleeps }
  else { s with starting := (thread, deadline) :: s.starting }

/-- `try_sleep_ticks` from the lock on; a full table is refused. -/
def register (s : St n) (thread : ThreadId) (deadline : UInt64) : St n :=
  let s := { s with starting := s.starting.erase (thread, deadline) }
  match s.timers.position with
  | none => s
  | some index =>
    let sleep : Sleep := ⟨deadline, some index, s.generation, thread, s.registered⟩
    let timers := update s.timers index (some sleep.timer)
    { s with
      timers := timers
      generation := s.generation + 1
      highWater := max s.highWater (Timers.used timers)
      sleeps := sleep :: s.sleeps
      registered := s.registered + 1 }

section

variable {s : St n} {thread : ThreadId} {deadline : UInt64} {index : Fin capacity}

theorem register_full (h : s.timers.position = none) :
    s.register thread deadline = { s with starting := s.starting.erase (thread, deadline) } := by
  simp [register, h]

theorem register_at (h : s.timers.position = some index) :
    s.register thread deadline =
      { s with
        starting := s.starting.erase (thread, deadline)
        timers := update s.timers index
          (some (Sleep.mk deadline (some index) s.generation thread s.registered).timer)
        generation := s.generation + 1
        highWater := max s.highWater (Timers.used (update s.timers index
          (some (Sleep.mk deadline (some index) s.generation thread s.registered).timer)))
        sleeps := ⟨deadline, some index, s.generation, thread, s.registered⟩ :: s.sleeps
        registered := s.registered + 1 } := by
  simp [register, h]

end

/-- `Sleep::drop`. -/
def drop (s : St n) (sl : Sleep) : St n :=
  let s := { s with sleeps := s.sleeps.erase sl }
  match sl.slot with
  | none => s
  | some index =>
    if (s.timers index).any fun timer => timer.generation == sl.generation then
      { s with timers := update s.timers index none }
    else s

/-- The locked section of `expire_timers`. -/
def expire (s : St n) (c : Fin n) (now : UInt64) : St n :=
  let (timers, woken) := s.timers.expire now
  { s with timers := timers, waking := update s.waking c woken, expired := woken ++ s.expired }

end St

inductive Act (n : Nat) where
  /-- A timer interrupt counts; its `expire_timers` is a step of its own. -/
  | tick
  | begin (thread : ThreadId) (ticks : UInt64)
  | register (thread : ThreadId) (deadline : UInt64)
  /-- `Sleep::poll` answers whether it is ready. -/
  | poll (sl : Sleep) (ready : Bool)
  | drop (sl : Sleep)
  | expire (c : Fin n) (now : UInt64)
  /-- `expire_timers` unparks the next thread. -/
  | unpark (c : Fin n)

def step (s : St n) : Act n → Option (St n)
  | .tick => some { s with ticks := s.ticks + 1 }
  | .begin thread ticks => some (s.begin thread ticks)
  | .register thread deadline =>
    if (thread, deadline) ∈ s.starting then some (s.register thread deadline) else none
  | .poll sl ready => if sl ∈ s.sleeps ∧ sl.poll s.ticks = ready then some s else none
  | .drop sl => if sl ∈ s.sleeps then some (s.drop sl) else none
  | .expire c now => if s.waking c = [] then some (s.expire c now) else none
  | .unpark c =>
    match s.waking c with
    | [] => none
    | timer :: rest =>
      some { s with waking := update s.waking c rest, unparked := timer :: s.unparked }

abbrev Step (s : St n) (a : Act n) (t : St n) : Prop := step s a = some t

/-! ### The table -/

namespace Timers

variable {timers : Timers} {now : UInt64} {i : Fin capacity} {timer : Timer}

theorem position_eq_some (h : timers.position = some i) : timers i = none := by
  simpa using List.find?_some h

/-- What of a slot is due. -/
def due (timers : Timers) (now : UInt64) (i : Fin capacity) : Option Timer :=
  (timers i).filter fun timer => decide (timer.deadline ≤ now)

theorem due_eq_some :
    timers.due now i = some timer ↔ timers i = some timer ∧ timer.deadline ≤ now := by
  simp [due]

theorem foldl_expireSlot (l : List (Fin capacity)) (hl : l.Nodup) (woken : List Timer) :
    l.foldl (expireSlot now) (timers, woken) =
      (fun i => if i ∈ l ∧ (timers.due now i).isSome then none else timers i,
        woken ++ l.filterMap (timers.due now)) := by
  induction l generalizing timers woken with
  | nil => simp
  | cons j l ih =>
    obtain ⟨hj, hl⟩ := List.nodup_cons.mp hl
    cases hdue : timers.due now j with
    | none =>
      have ht : expireSlot now (timers, woken) j = (timers, woken) := by
        unfold expireSlot
        cases htj : timers j with
        | none => simp [htj]
        | some timer =>
          have hla : ¬ timer.deadline ≤ now := fun hle => by
            simp [due_eq_some.mpr ⟨htj, hle⟩] at hdue
          simp [htj, hla]
      rw [List.foldl_cons, ht, ih hl, List.filterMap_cons_none hdue]
      congr 1
      funext k
      by_cases hk : k = j
      · simp [hk, hj, hdue]
      · simp [hk]
    | some timer =>
      obtain ⟨htj, hle⟩ := due_eq_some.mp hdue
      have ht : expireSlot now (timers, woken) j =
          (update timers j none, woken ++ [timer]) := by
        simp [expireSlot, htj, hle]
      -- the other slots are as they were
      have hs : ∀ k, k ≠ j → due (update timers j none) now k = timers.due now k := by
        intro k hk
        simp [due, hk]
      rw [List.foldl_cons, ht, ih hl, List.filterMap_cons_some hdue,
        List.filterMap_congr fun k hk => hs k (fun heq => hj (heq ▸ hk))]
      congr 1
      · funext k
        by_cases hk : k = j
        · simp [hk, hj, hdue]
        · simp [hk, hs k hk]
      · simp

theorem expire_eq : timers.expire now =
    (fun i => if (timers.due now i).isSome then none else timers i,
      (List.finRange capacity).filterMap (timers.due now)) := by
  simp [expire, foldl_expireSlot _ (List.nodup_finRange capacity)]

theorem expire_table : (timers.expire now).1 i = some timer ↔
    timers i = some timer ∧ now < timer.deadline := by
  rw [expire_eq]
  cases hti : timers i with
  | none => simp [due, hti]
  | some other =>
    by_cases hle : other.deadline ≤ now
    · simp only [due, hti, Option.filter_some, hle, decide_true, if_true, Option.isSome_some,
        Option.some.injEq, reduceCtorEq, false_iff, not_and, UInt64.not_lt]
      rintro rfl
      exact hle
    · simp only [due, hti, Option.filter_some, hle, decide_false, Bool.false_eq_true, if_false,
        Option.isSome_none, Option.some.injEq, iff_self_and]
      rintro rfl
      exact UInt64.not_le.mp hle

theorem mem_expire : timer ∈ (timers.expire now).2 ↔
    (∃ i, timers i = some timer) ∧ timer.deadline ≤ now := by
  simp [expire_eq, due_eq_some]

theorem nodup_expire (hinj : ∀ i j timer, timers i = some timer → timers j = some timer → i = j) :
    (timers.expire now).2.Nodup := by
  rw [expire_eq]
  apply (List.nodup_finRange capacity).filterMap
  intro i j timer hi hj
  exact hinj i j timer (due_eq_some.mp hi).1 (due_eq_some.mp hj).1

end Timers

/-! ### Registrations and their sleeps -/

/-- What stands between being taken and being unparked. -/
def St.toWake (s : St n) (timer : Timer) : Nat := tally (List.count timer) s.waking

/-- A registration is made only while the holders of slots are younger than the
generation counter's period. -/
def Near (s : St n) : Act n → Prop
  | .register _ _ => ∀ sl ∈ s.sleeps, sl.slot ≠ none → s.registered < sl.serial + 2 ^ 64
  | _ => True

instance (s : St n) (a : Act n) : Decidable (Near s a) := by
  cases a <;> unfold Near <;> infer_instance

structure Sound (s : St n) : Prop where
  generation : s.generation = UInt64.ofNat s.registered
  issued : ∀ sl ∈ s.sleeps, sl.slot ≠ none →
    sl.serial < s.registered ∧ sl.generation = UInt64.ofNat sl.serial
  distinct : s.sleeps.Pairwise fun a b => a.slot ≠ none → b.slot ≠ none → a.serial ≠ b.serial
  close : ∀ a ∈ s.sleeps, ∀ b ∈ s.sleeps, a.slot ≠ none → b.slot ≠ none →
    b.serial < a.serial + 2 ^ 64
  table : ∀ i timer, s.timers i = some timer ↔
    ∃ sl ∈ s.sleeps, sl.slot = some i ∧ sl.timer = timer ∧ timer ∉ s.expired
  past : ∀ timer ∈ s.expired, timer.serial < s.registered
  expired : s.expired.Nodup
  wakes : ∀ timer, s.unparked.count timer + s.toWake timer = s.expired.count timer

namespace Sound

variable {s t : St n} {a : Act n} {sl sl' : Sleep} {i j : Fin capacity} {timer : Timer}

section

variable (h : Sound s)

include h

theorem serial_ne (hsl : sl ∈ s.sleeps) (hsl' : sl' ∈ s.sleeps.erase sl)
    (hs : sl.slot ≠ none) (hs' : sl'.slot ≠ none) : sl.serial ≠ sl'.serial := by
  have hp : (sl :: s.sleeps.erase sl).Pairwise
      fun a b => a.slot ≠ none → b.slot ≠ none → a.serial ≠ b.serial :=
    h.distinct.perm (List.perm_cons_erase hsl) fun hne hb ha => (hne ha hb).symm
  exact (List.pairwise_cons.mp hp).1 sl' hsl' hs hs'

theorem eq_of_serial (hsl : sl ∈ s.sleeps) (hsl' : sl' ∈ s.sleeps)
    (hs : sl.slot ≠ none) (hs' : sl'.slot ≠ none) (heq : sl.serial = sl'.serial) :
    sl = sl' := by
  by_contra hne
  have he : sl' ∈ s.sleeps.erase sl := (List.mem_erase_of_ne (Ne.symm hne)).mpr hsl'
  exact h.serial_ne hsl he hs hs' heq

/-- The generations of the sleeps there are tell them apart. -/
theorem eq_of_generation (hsl : sl ∈ s.sleeps) (hsl' : sl' ∈ s.sleeps)
    (hs : sl.slot ≠ none) (hs' : sl'.slot ≠ none) (heq : sl.generation = sl'.generation) :
    sl = sl' := by
  have hle := h.close sl hsl sl' hsl' hs hs'
  have hge := h.close sl' hsl' sl hsl hs' hs
  have hmod : sl.serial % 2 ^ 64 = sl'.serial % 2 ^ 64 := by
    rw [(h.issued sl hsl hs).2, (h.issued sl' hsl' hs').2] at heq
    simpa using congrArg UInt64.toNat heq
  exact h.eq_of_serial hsl hsl' hs hs' (by omega)

theorem slot_inj (hi : s.timers i = some timer) (hj : s.timers j = some timer) :
    i = j := by
  obtain ⟨a, ha, hai, rfl, -⟩ := (h.table i _).mp hi
  obtain ⟨b, hb, hbj, hba, -⟩ := (h.table j _).mp hj
  have hab : a = b := h.eq_of_serial ha hb (by simp [hai]) (by simp [hbj])
    (congrArg Timer.serial hba).symm
  subst hab
  exact Option.mem_unique hai hbj

/-- Which slot the drop of a `Sleep` clears: its own, if it has not fired. -/
theorem drop_timers (hsl : sl ∈ s.sleeps) (i : Fin capacity) :
    (s.drop sl).timers i =
      if sl.slot = some i ∧ sl.timer ∉ s.expired then none else s.timers i := by
  cases hs : sl.slot with
  | none => simp [St.drop, hs]
  | some index =>
    have hne : sl.slot ≠ none := by simp [hs]
    by_cases hf : sl.timer ∈ s.expired
    · -- whoever has the slot now is another, of another generation
      have hk : (s.timers index).any (fun timer => timer.generation == sl.generation) =
          false := by
        cases hti : s.timers index with
        | none => rfl
        | some timer =>
          obtain ⟨other, ho, hin, rfl, hl⟩ := (h.table index timer).mp hti
          simp only [Option.any_some, beq_eq_false_iff_ne]
          intro hgen
          have heq := h.eq_of_generation ho hsl (by simp [hin]) hne hgen
          exact hl (heq ▸ hf)
      simp [St.drop, hs, hk, hf]
    · have hti : s.timers index = some sl.timer := (h.table index _).mpr ⟨sl, hsl, hs, rfl, hf⟩
      have hgen : (s.timers index).any (fun timer => timer.generation == sl.generation) = true := by
        simp [hti, Sleep.timer]
      rcases eq_or_ne index i with rfl | hi
      · simp [St.drop, hs, hgen, hf]
      · simp [St.drop, hs, hgen, hi, Ne.symm hi]

/-- Steps that leave the registrations alone, and may make or end sleeps without a slot. -/
theorem withSleeps {sleeps : List Sleep} {ticks : UInt64}
    {starting : List (ThreadId × UInt64)}
    (hmem : ∀ sl, sl.slot ≠ none → (sl ∈ sleeps ↔ sl ∈ s.sleeps))
    (hd : sleeps.Pairwise fun a b => a.slot ≠ none → b.slot ≠ none → a.serial ≠ b.serial) :
    Sound { s with ticks := ticks, starting := starting, sleeps := sleeps } := by
  refine { h with
    issued := fun sl hsl hs => h.issued sl ((hmem sl hs).mp hsl) hs
    distinct := hd
    close := fun a ha b hb hsa hsb =>
      h.close a ((hmem a hsa).mp ha) b ((hmem b hsb).mp hb) hsa hsb
    table := fun i timer => ?_ }
  rw [h.table i timer]
  constructor
  · rintro ⟨sl, hsl, hs, hr⟩
    exact ⟨sl, (hmem sl (by simp [hs])).mpr hsl, hs, hr⟩
  · rintro ⟨sl, hsl, hs, hr⟩
    exact ⟨sl, (hmem sl (by simp [hs])).mp hsl, hs, hr⟩

theorem begin (thread : ThreadId) (ticks : UInt64) : Sound (s.begin thread ticks) := by
  unfold St.begin
  dsimp only
  split
  · -- a sleep of no time has no slot
    apply h.withSleeps
    · intro sl hs
      constructor
      · rintro (_ | ⟨_, hsl⟩)
        · exact absurd rfl hs
        · exact hsl
      · exact List.mem_cons_of_mem _
    · exact List.pairwise_cons.mpr ⟨fun b _ hs => absurd rfl hs, h.distinct⟩
  · exact h.withSleeps (fun _ _ => Iff.rfl) h.distinct

theorem register {thread : ThreadId} {deadline : UInt64}
    (hn : ∀ sl ∈ s.sleeps, sl.slot ≠ none → s.registered < sl.serial + 2 ^ 64) :
    Sound (s.register thread deadline) := by
  cases hpos : s.timers.position with
  | none =>
    rw [St.register_full hpos]
    exact h.withSleeps (fun _ _ => Iff.rfl) h.distinct
  | some index =>
    have hf : s.timers index = none := Timers.position_eq_some hpos
    rw [St.register_at hpos]
    generalize hnew : (⟨deadline, some index, s.generation, thread, s.registered⟩ : Sleep) = new
    have hs : new.serial = s.registered := by rw [← hnew]
    have hslot : new.slot = some index := by rw [← hnew]
    have hu : new.timer ∉ s.expired := by
      intro hmem
      have hp := h.past _ hmem
      exact absurd hp (by simp [Sleep.timer, hs])
    constructor
    case generation =>
      simp only [h.generation, UInt64.ofNat_add]
      rfl
    case issued =>
      rintro sl (_ | ⟨_, hsl⟩) hne
      · refine ⟨by simp [hs], ?_⟩
        rw [hs, ← h.generation, ← hnew]
      · obtain ⟨hlt, hgen⟩ := h.issued sl hsl hne
        exact ⟨Nat.lt_succ_of_lt hlt, hgen⟩
    case distinct =>
      refine List.pairwise_cons.mpr ⟨?_, h.distinct⟩
      intro sl hsl _ hne
      have hlt := (h.issued sl hsl hne).1
      omega
    case close =>
      rintro a (_ | ⟨_, ha⟩) b (_ | ⟨_, hb⟩) hsa hsb
      · omega
      · have hlt := (h.issued b hb hsb).1
        omega
      · rw [hs]
        exact hn a ha hsa
      · exact h.close a ha b hb hsa hsb
    case table =>
      intro i timer
      by_cases hi : i = index
      · -- nobody else has a registration in the free slot
        subst hi
        simp only [update_self, Option.some.injEq, List.mem_cons]
        constructor
        · rintro rfl
          exact ⟨new, .inl rfl, hslot, rfl, hu⟩
        · rintro ⟨sl, rfl | hsl, hi, rfl, hl⟩
          · rfl
          · have hti := (h.table i _).mpr ⟨sl, hsl, hi, rfl, hl⟩
            rw [hf] at hti
            cases hti
      · simp only [update_of_ne hi]
        rw [h.table i timer]
        constructor
        · rintro ⟨sl, hsl, hr⟩
          exact ⟨sl, List.mem_cons_of_mem _ hsl, hr⟩
        · rintro ⟨sl, _ | ⟨_, hsl⟩, hin, hr⟩
          · exact absurd (Option.mem_unique hin hslot) hi
          · exact ⟨sl, hsl, hin, hr⟩
    case past => exact fun timer hmem => Nat.lt_succ_of_lt (h.past timer hmem)
    case expired => exact h.expired
    case wakes => exact h.wakes

end

theorem drop_eq (s : St n) (sl : Sleep) :
    s.drop sl = { s with sleeps := s.sleeps.erase sl, timers := (s.drop sl).timers } := by
  unfold St.drop
  cases sl.slot with
  | none => rfl
  | some index =>
    dsimp only
    split <;> rfl

theorem drop (h : Sound s) (hsl : sl ∈ s.sleeps) : Sound (s.drop sl) := by
  have hmem : ∀ b, b ∈ s.sleeps.erase sl → b ∈ s.sleeps := fun b => List.mem_of_mem_erase
  rw [drop_eq]
  refine { h with
    issued := fun b hb => h.issued b (hmem b hb)
    distinct := h.distinct.sublist List.erase_sublist
    close := fun a ha b hb => h.close a (hmem a ha) b (hmem b hb)
    table := fun i timer => ?_ }
  simp only [h.drop_timers hsl i]
  constructor
  · intro hti
    split_ifs at hti with hnot
    obtain ⟨b, hb, hi, rfl, hl⟩ := (h.table i timer).mp hti
    have hne : b ≠ sl := by
      rintro rfl
      exact hnot ⟨hi, hl⟩
    exact ⟨b, (List.mem_erase_of_ne hne).mpr hb, hi, rfl, hl⟩
  · rintro ⟨b, hb, hi, rfl, hl⟩
    have hti := (h.table i _).mpr ⟨b, hmem b hb, hi, rfl, hl⟩
    rw [if_neg]
    · exact hti
    · -- the dropped one's registration would be the other's
      rintro ⟨hs, hown⟩
      have hti' := (h.table i _).mpr ⟨sl, hsl, hs, rfl, hown⟩
      have hsa : sl.timer = b.timer := Option.mem_unique hti' hti
      exact h.serial_ne hsl hb (by simp [hs]) (by simp [hi]) (congrArg Timer.serial hsa)

theorem expire (h : Sound s) {c : Fin n} (now : UInt64) (hc : s.waking c = []) :
    Sound (s.expire c now) := by
  have ht : ∀ timer ∈ (s.timers.expire now).2, ∃ sl ∈ s.sleeps, sl.slot ≠ none ∧
      sl.timer = timer ∧ timer ∉ s.expired := by
    intro timer hmem
    obtain ⟨⟨i, hi⟩, -⟩ := Timers.mem_expire.mp hmem
    obtain ⟨sl, hsl, hs, hr⟩ := (h.table i timer).mp hi
    exact ⟨sl, hsl, by simp [hs], hr⟩
  refine { h with table := ?table, past := ?past, expired := ?expired, wakes := ?wakes }
  case table =>
    intro i timer
    simp only [St.expire, Timers.expire_table, List.mem_append, not_or]
    constructor
    · rintro ⟨hti, hlt⟩
      obtain ⟨sl, hsl, hs, heq, hl⟩ := (h.table i timer).mp hti
      refine ⟨sl, hsl, hs, heq, ?_, hl⟩
      intro hmem
      exact UInt64.not_lt.mpr (Timers.mem_expire.mp hmem).2 hlt
    · rintro ⟨sl, hsl, hs, heq, hleft, hl⟩
      have hti := (h.table i timer).mpr ⟨sl, hsl, hs, heq, hl⟩
      refine ⟨hti, UInt64.not_le.mp fun hle => hleft ?_⟩
      exact Timers.mem_expire.mpr ⟨⟨i, hti⟩, hle⟩
  case past =>
    intro timer hmem
    rcases List.mem_append.mp hmem with hmem | hmem
    · obtain ⟨sl, hsl, hs, rfl, -⟩ := ht timer hmem
      exact (h.issued sl hsl hs).1
    · exact h.past timer hmem
  case expired =>
    refine List.nodup_append.mpr ⟨?_, h.expired, ?_⟩
    · exact Timers.nodup_expire fun i j timer hi hj => h.slot_inj hi hj
    · rintro timer hmem _ hold rfl
      obtain ⟨sl, -, -, -, hl⟩ := ht timer hmem
      exact hl hold
  case wakes =>
    intro timer
    have hco := tally_update (f := List.count timer) (g := s.waking) (i := c)
      (s.timers.expire now).2
    have hw := h.wakes timer
    simp only [hc, List.count_nil] at hco
    simp only [St.toWake, St.expire, List.count_append] at hw ⊢
    omega

theorem unpark (h : Sound s) {c : Fin n} {rest : List Timer} (hc : s.waking c = timer :: rest) :
    Sound { s with waking := update s.waking c rest, unparked := timer :: s.unparked } := by
  refine { h with wakes := fun other => ?_ }
  have hco := tally_update (f := List.count other) (g := s.waking) (i := c) rest
  have hw := h.wakes other
  simp only [hc, List.count_cons] at hco
  simp only [St.toWake, List.count_cons] at hw ⊢
  omega

theorem step (h : Sound s) (hn : Near s a) (hst : Step s a t) : Sound t := by
  cases a with
  | tick =>
    cases hst
    exact h.withSleeps (fun _ _ => Iff.rfl) h.distinct
  | begin thread ticks =>
    cases hst
    exact h.begin thread ticks
  | register thread deadline =>
    simp only [Step, Task.step, Option.ite_none_right_eq_some, Option.some.injEq] at hst
    obtain ⟨-, rfl⟩ := hst
    exact h.register hn
  | poll sl ready =>
    simp only [Step, Task.step, Option.ite_none_right_eq_some, Option.some.injEq] at hst
    exact hst.2 ▸ h
  | drop sl =>
    simp only [Step, Task.step, Option.ite_none_right_eq_some, Option.some.injEq] at hst
    obtain ⟨hsl, rfl⟩ := hst
    exact h.drop hsl
  | expire c now =>
    simp only [Step, Task.step, Option.ite_none_right_eq_some, Option.some.injEq] at hst
    obtain ⟨hc, rfl⟩ := hst
    exact h.expire now hc
  | unpark c =>
    cases hc : s.waking c with
    | nil => simp [Step, Task.step, hc] at hst
    | cons timer rest =>
      simp only [Step, Task.step, hc, Option.some.injEq] at hst
      exact hst ▸ h.unpark hc

theorem boot : Sound (St.boot n) := by
  constructor <;> simp [St.boot, St.toWake, tally]

end Sound

/-! ### Whole runs -/

/-- What holds of the table whenever its lock is free. -/
structure Intact (s : St n) : Prop where
  occupied : ∀ i timer, s.timers i = some timer ↔
    ∃ sl ∈ s.sleeps, sl.slot = some i ∧ sl.timer = timer ∧ timer ∉ s.expired
  apart : s.sleeps.Pairwise fun a b => a.slot ≠ none → b.slot ≠ none → a.timer ≠ b.timer
  dropped : ∀ sl ∈ s.sleeps, ∀ i, (s.drop sl).timers i =
    if sl.slot = some i ∧ sl.timer ∉ s.expired then none else s.timers i
  removed : ∀ c now i timer, (s.expire c now).timers i = some timer ↔
    s.timers i = some timer ∧ now < timer.deadline
  taken : ∀ c now timer, timer ∈ (s.expire c now).waking c ↔
    (∃ i, s.timers i = some timer) ∧ timer.deadline ≤ now
  logged : ∀ c now, (s.expire c now).expired = (s.expire c now).waking c ++ s.expired
  once : ∀ timer ∈ s.expired, s.unparked.count timer + s.toWake timer = 1
  finishes : ∀ c, ∃ t, Run Step s (List.replicate (s.waking c).length (.unpark c)) t ∧
    t.waking c = [] ∧ t.unparked = (s.waking c).reverse ++ s.unparked

/-- A call of `expire_timers` that is let run unparks what it took. -/
theorem St.finishes (s : St n) (c : Fin n) :
    ∃ t, Run Step s (List.replicate (s.waking c).length (.unpark c)) t ∧
      t.waking c = [] ∧ t.unparked = (s.waking c).reverse ++ s.unparked := by
  generalize hl : s.waking c = left
  induction left generalizing s with
  | nil => exact ⟨s, .nil _, hl, rfl⟩
  | cons timer left ih =>
    obtain ⟨t, hrun, hd, hlog⟩ :=
      ih { s with waking := update s.waking c left, unparked := timer :: s.unparked }
        (update_self ..)
    have hf : Step s (.unpark c)
        { s with waking := update s.waking c left, unparked := timer :: s.unparked } := by
      simp [Step, step, hl]
    exact ⟨t, .cons hf hrun, hd, by simp [hlog]⟩

theorem Sound.intact {s : St n} (h : Sound s) : Intact s := by
  constructor
  case occupied => exact h.table
  case apart =>
    refine h.distinct.imp ?_
    intro a b hne ha hb heq
    exact hne ha hb (congrArg Timer.serial heq)
  case dropped => exact fun sl hsl i => h.drop_timers hsl i
  case removed => exact fun c now i timer => Timers.expire_table
  case taken =>
    simp [St.expire, Timers.mem_expire]
  case logged =>
    simp [St.expire]
  case once =>
    intro timer hmem
    rw [h.wakes timer, List.count_eq_one_of_mem h.expired hmem]
  case finishes => exact s.finishes

/-- From boot, over every run in which no slot's `Sleep` is left from a whole period of
the generation counter ago when another registers. -/
theorem timers_intact (n : Nat) (as : List (Act n)) (s : St n)
    (hrun : Run (fun s a t => Step s a t ∧ Near s a) (St.boot n) as s) : Intact s :=
  (hrun.invariant (fun _ _ _ h hst => h.step hst.2 hst.1) Sound.boot).intact

/-- Two sleeps of one thread with one deadline; the first is dropped, the second fires. -/
theorem timers_intact_twins : ∃ s : St 1,
    Run (fun s a t => Step s a t ∧ decide (Near s a) = true) (St.boot 1)
      [.begin ⟨7⟩ 5, .begin ⟨7⟩ 5, .register ⟨7⟩ 5, .register ⟨7⟩ 5, .drop ⟨5, some 0, 0, ⟨7⟩, 0⟩,
        .tick, .expire 0 5, .unpark 0] s ∧
      s.unparked = [⟨5, ⟨7⟩, 1, 1⟩] ∧ Intact s := by
  refine exists_run_of_exec_guarded (by decide +kernel) fun s hrun hlog => ⟨hlog, ?_⟩
  refine timers_intact 1 _ s (hrun.mono ?_)
  intro s a t hst
  exact ⟨hst.1, of_decide_eq_true hst.2⟩

/-! ### The generation counter comes round -/

namespace Lap

/-- A sleep that fires and is kept. -/
def first : Sleep := ⟨5, some 0, 0, ⟨7⟩, 0⟩

/-- The table after `k` registrations, the first fired and kept, the others dropped. -/
def after (k : Nat) : St 1 :=
  ⟨0, fun _ => none, UInt64.ofNat k, 1, [], [first], fun _ => [], k, [first.timer], [first.timer]⟩

theorem position_empty : Timers.position (fun _ => none) = some 0 := rfl

theorem expire_first : Timers.expire (update (fun _ => none) 0 (some first.timer)) 5 =
    (fun _ => none, [first.timer]) := by
  have ht : (Timers.expire (update (fun _ => none) 0 (some first.timer)) 5).1 =
      fun _ => none := by
    funext i
    rcases eq_or_ne i 0 with rfl | hi
    · rfl
    · simp [Timers.expire_eq, hi]
  exact Prod.ext ht rfl

theorem start : ∃ as, Run Step (St.boot 1) as (after 1) := by
  have hregister : Step { St.boot 1 with starting := [(⟨7⟩, 5)] } (.register ⟨7⟩ 5)
      { St.boot 1 with
        timers := update (fun _ => none) 0 (some first.timer)
        generation := 1, highWater := 1, sleeps := [first], registered := 1 } := by
    rfl
  have hexpire : Step { St.boot 1 with
        timers := update (fun _ => none) 0 (some first.timer)
        generation := 1, highWater := 1, sleeps := [first], registered := 1 } (.expire 0 5)
      { after 1 with waking := update (fun _ => []) 0 [first.timer], unparked := [] } := by
    simp only [Step, step, St.expire, expire_first]
    rfl
  have hunpark : Step
      { after 1 with waking := update (fun _ => []) 0 [first.timer], unparked := [] }
      (.unpark 0) (after 1) := by
    simp only [Step, step, update_self, update_idem]
    rw [update_eq_self_iff.mpr rfl]
    rfl
  exact ⟨_, .cons (a := .begin ⟨7⟩ 5) rfl
    (.cons hregister (.cons hexpire (.cons hunpark (.nil _))))⟩

/-- One more sleep is registered. -/
def next (k : Nat) : St 1 :=
  { after k with
    timers := update (fun _ => none) 0 (some (Sleep.mk 1 (some 0) (UInt64.ofNat k) ⟨8⟩ k).timer)
    generation := UInt64.ofNat (k + 1)
    sleeps := [⟨1, some 0, UInt64.ofNat k, ⟨8⟩, k⟩, first]
    registered := k + 1 }

theorem register_next (k : Nat) : Run Step (after k) [.begin ⟨8⟩ 1, .register ⟨8⟩ 1] (next k) := by
  have hr : Step { after k with starting := [(⟨8⟩, 1)] } (.register ⟨8⟩ 1) (next k) := by
    rw [Step, step, next, UInt64.ofNat_add]
    rfl
  exact .cons rfl (.cons hr (.nil _))

theorem drop_next (k : Nat) :
    Step (next k) (.drop ⟨1, some 0, UInt64.ofNat k, ⟨8⟩, k⟩) (after (k + 1)) := by
  rw [Step, step]
  simp [St.drop, next, after, Sleep.timer]

theorem cycles (k : Nat) : ∃ as, Run Step (St.boot 1) as (after (k + 1)) := by
  induction k with
  | zero => exact start
  | succ k ih =>
    obtain ⟨as, hrun⟩ := ih
    exact ⟨_, (hrun.append (register_next (k + 1))).snoc (drop_next (k + 1))⟩

end Lap

/-- After 2^64 registrations the next has the generation of the first, and the first's
drop clears it. -/
theorem drop_clears_another : ∃ (as : List (Act 1)) (s : St 1), Run Step (St.boot 1) as s ∧
    ∃ a ∈ s.sleeps, ∃ b ∈ s.sleeps, a ≠ b ∧ b.slot = some 0 ∧ b.timer ∉ s.expired ∧
      s.timers 0 = some b.timer ∧ (s.drop a).timers 0 = none := by
  obtain ⟨as, hrun⟩ := Lap.cycles (2 ^ 64 - 1)
  refine ⟨_, _, hrun.append (Lap.register_next (2 ^ 64)), Lap.first, ?_,
    ⟨1, some 0, UInt64.ofNat (2 ^ 64), ⟨8⟩, 2 ^ 64⟩, ?_, ?_, rfl, ?_, rfl, ?_⟩
  · simp [Lap.next]
  · simp [Lap.next]
  · simp [Lap.first]
  · simp [Lap.next, Lap.after, Lap.first, Sleep.timer]
  · rfl

end Qunix.Task
