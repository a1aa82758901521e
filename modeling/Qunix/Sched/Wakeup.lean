/-
Wakeups and the calls of `park`.

A call of `park` has been woken once an `unpark` of its thread has run since the
call began, or if one was noted before. `Watch` records that beside the machine.
A woken call must not leave its thread parked.

The source looks at the parked flag a second time after the halt and, if it is
still set, goes back to `ParkState::park` without asking again. A wakeup between
the two clears the flag without leaving a note, and the thread parks once more.
Away from that window no wakeup is lost: `Watch.not_parked_of_woken`.
`Qunix.Hal.OwnIds` carries this over to the ids that `park` really acts on.
-/

import Qunix.Sched.Exclusion

namespace Qunix.Sched

open Function Qunix.Lib

variable {n : Nat}

/-! ### Woken calls -/

/-- A noted wakeup. -/
def St.pending (s : St n) (x : ThreadId) : Bool := (s.flags x).any ParkState.pending

/-- The machine, with a record of which threads were woken in their current call
of `park`. -/
structure Watch (n : Nat) where
  st : St n
  woken : ThreadId → Bool

namespace Watch

def boot (n : Nat) : Watch n := ⟨St.boot n, fun _ => false⟩

/-- What an action does to the record: a call begins with the wakeups noted so
far, and `unpark` wakes. -/
def note (w : Watch n) : Act n → ThreadId → Bool
  | .run c .park =>
    match w.st.current c with
    | some me => update w.woken me (w.st.pending me)
    | none => w.woken
  | .unpark id => update w.woken id true
  | _ => w.woken

def step (w : Watch n) (a : Act n) : Option (Watch n) :=
  (w.st.step a).map fun t => ⟨t, w.note a⟩

def Step (w : Watch n) (a : Act n) (w' : Watch n) : Prop := w.step a = some w'

theorem step_spec {w w' : Watch n} {a : Act n} (h : w.step a = some w') :
    w.st.step a = some w'.st ∧ w'.woken = w.note a := by
  obtain ⟨t, ht, rfl⟩ := Option.map_eq_some_iff.mp h
  exact ⟨ht, rfl⟩

end Watch

/-- Inside a call of `park`. -/
def Base.InPark (b : Base) : Prop := ∃ irq stage, b = .park irq stage

namespace St

/-- The second `is_parked` of a call has answered yes and the `ParkState::park`
that follows it has not run yet. -/
def rearming (s : St n) (x : ThreadId) : Bool :=
  match s.base x with
  | .park _ .again => true
  | .park _ .top => s.parked x
  | _ => false

/-- No wakeup of a thread that is about to park again. -/
def timely (s : St n) : Act n → Bool
  | .unpark id => !s.rearming id
  | _ => true

end St

/-! ### One thread -/

/-- How the code of a thread, its park state and the record go together. -/
def Heeds (b : Base) (p : Option ParkState) (woken : Bool) : Prop :=
  match b with
  | .park _ .top =>
    (p.any ParkState.parked = false ∧ (woken = true → p.any ParkState.pending = true)) ∨
      (p.any ParkState.parked = true ∧ woken = false)
  | .park _ .again => p.any ParkState.parked = true ∧ woken = false
  | .park _ .sched => woken = true → p.any ParkState.parked = false
  | .park _ .check => woken = true → p.any ParkState.parked = false
  | .park _ .sti => woken = true → p.any ParkState.parked = false
  | .park _ .halt => woken = true → p.any ParkState.parked = false
  | .park _ .recheck => woken = true → p.any ParkState.parked = false
  | .park _ .done => p.any ParkState.parked = false
  | _ => p.any ParkState.parked = false

namespace Heeds

variable {b : Base} {p : Option ParkState} {woken : Bool}

theorem wake (h : Heeds b p woken) : Heeds b.wake p woken := by
  unfold Base.wake
  split <;> exact h

variable {k k' : Ctl}

/-- A thread's own steps; a call of `park` starts a new record. -/
theorem runs {a : Local} (hk : k.Runs a k') (h : Heeds k.base p woken) :
    Heeds k'.base p (if a = .park then p.any ParkState.pending else woken) := by
  cases hk with
  | interrupt => exact h.wake
  | park => exact .inl ⟨h, fun hp => hp⟩
  | mask => exact .inr h
  | _ => exact h

theorem enters {e : Enter} {out : ThreadState} {irq : Bool} (hk : k.Enters e k' out irq)
    (h : Heeds k.base p woken) : Heeds k'.base p woken := by
  cases hk with
  | tick => exact h.wake
  | _ => exact h

/-- Outside `park` and at its last stage nothing is parked, whatever is
recorded. -/
theorem of_not_parked (hp : p.any ParkState.parked = false) (hb : ∀ irq, b ≠ .park irq .again)
    (htop : ∀ irq, b = .park irq .top → woken = true → p.any ParkState.pending = true) :
    Heeds b p woken := by
  unfold Heeds
  split
  · exact .inl ⟨hp, htop _ rfl⟩
  · exact absurd rfl (hb _)
  all_goals first | exact hp | exact fun _ => hp

end Heeds

/-! ### All threads -/

def Attentive (w : Watch n) : Prop := ∀ x, Heeds (w.st.base x) (w.st.flags x) (w.woken x)

namespace Attentive

open St

variable {w : Watch n} {t : St n} {woken : ThreadId → Bool} {c : Fin n} {x me id : ThreadId}

/-- Steps that leave the code and the flags of every thread alone. -/
theorem quiet (h : Attentive w) (hb : t.base = w.st.base)
    (hf : ∀ x, t.flags x = w.st.flags x) : Attentive ⟨t, w.woken⟩ := by
  intro x
  rw [hb, hf]
  exact h x

variable {b : Base} {irq : Bool} {e : Thread n}

theorem own (h : Attentive w) (me : ThreadId) (hb : t.base = update w.st.base me b)
    (hf : ∀ x, x ≠ me → t.flags x = w.st.flags x) (hw : ∀ x, x ≠ me → woken x = w.woken x)
    (hme : Heeds b (t.flags me) (woken me)) : Attentive ⟨t, woken⟩ := by
  intro x
  change Heeds (t.base x) (t.flags x) (woken x)
  rcases eq_or_ne x me with rfl | hx
  · rw [hb, update_self]
    exact hme
  · rw [hb, update_of_ne hx, hf x hx, hw x hx]
    exact h x

theorem note_run {a : Local} (hcur : w.st.current c = some me) (x : ThreadId) :
    w.note (.run c a) x = if x = me ∧ a = .park then w.st.pending me else w.woken x := by
  rcases eq_or_ne a .park with rfl | ha
  · simp only [Watch.note, hcur, and_true]
    by_cases hx : x = me
    · rw [hx, update_self, if_pos rfl]
    · rw [update_of_ne hx, if_neg hx]
  · rw [if_neg fun hand => ha hand.2]
    cases a with
    | park => exact absurd rfl ha
    | _ => rfl

theorem parkCancelled (hex : Exclusive w.st) (h : Attentive w)
    (hb : w.st.base me = .park irq .top) (ht : w.st.table me = some e)
    (hpe : e.park.pending = true) :
    Attentive ⟨(w.st.modify me fun e' => { e' with park := ⟨e.park.parked, false⟩ }).setBase me
      (.park irq .done), w.woken⟩ := by
  have hf : w.st.flags me = some e.park := by rw [flags, ht]; rfl
  refine h.own me rfl (fun x hx => (flags_modify _).trans (if_neg hx)) (fun _ _ => rfl) ?_
  have hnew : ((w.st.modify me fun e' => { e' with park := ⟨e.park.parked, false⟩ }).setBase me
      (.park irq .done)).flags me = some ⟨e.park.parked, false⟩ := by
    refine (flags_modify _).trans ?_
    rw [if_pos rfl, ht]
    rfl
  have hme := h me
  rw [hb, hf] at hme
  rw [hnew]
  rcases hme with ⟨hp, -⟩ | ⟨hp, -⟩
  · exact hp
  · have := hex.sober me e.park hf hp
    rw [hpe] at this
    cases this

theorem parkCheck {stage : ParkStage} (h : Attentive w)
    (hs : w.st.base me = .park irq .check ∧ stage = (if w.st.parked me then .sti else .done) ∨
      w.st.base me = .park irq .recheck ∧ stage = if w.st.parked me then .again else .done) :
    Heeds (.park irq stage) (w.st.flags me) (w.woken me) := by
  have hme := h me
  rw [parked_eq] at hs
  cases hp : (w.st.flags me).any ParkState.parked with
  | false =>
    rw [hp] at hs
    rcases hs with ⟨-, rfl⟩ | ⟨-, rfl⟩
    · exact hp
    · exact hp
  | true =>
    rw [hp] at hs
    rcases hs with ⟨hb, rfl⟩ | ⟨hb, rfl⟩
    · rw [hb] at hme
      exact hme
    · -- Answered yes: nothing has woken the call so far.
      rw [hb] at hme
      refine ⟨hp, ?_⟩
      rw [Bool.eq_false_iff]
      intro hw
      rw [hme hw] at hp
      cases hp

/-- A wakeup that comes in time is heeded: whatever becomes of the thread, its flag is
down and its code is the same. -/
theorem unpark {f : Thread n → Thread n} {p : ParkState} (h : Attentive w)
    (hta : w.st.table id = some e) (hba : t.base = w.st.base)
    (hs : t.table = (w.st.modify id f).table) (hf : (f e).park = p) (hp : p.parked = false)
    (hn : e.park.parked = false → p.pending = true) (ht : w.st.rearming id = false) :
    Attentive ⟨t, w.note (.unpark id)⟩ := by
  have hfl : ∀ x, t.flags x = if x = id then (w.st.table x).map fun e => (f e).park
      else w.st.flags x := fun x => by
    rw [← flags_modify, flags, hs]
    rfl
  refine h.own id (by rw [hba, update_eq_self])
    (fun x hx => (hfl x).trans (if_neg hx)) (fun x hx => update_of_ne hx _ _) ?_
  rw [hfl, if_pos rfl, hta, Option.map_some, hf]
  refine Heeds.of_not_parked hp (fun irq hb => ?_) fun irq hb _ => hn ?_
  · rw [rearming, hb] at ht
    cases ht
  · rw [rearming, hb, parked_eq, flags, hta] at ht
    exact ht

theorem born (h : Attentive w) (id : ThreadId) (hba : t.base = update w.st.base id b)
    (hf : ∀ x, t.flags x = if x = id then some .fresh else w.st.flags x) (hb : ¬ b.InPark) :
    Attentive ⟨t, w.woken⟩ := by
  refine h.own id hba (fun x hx => by rw [hf, if_neg hx]) (fun _ _ => rfl) ?_
  rw [hf, if_pos rfl]
  refine Heeds.of_not_parked rfl (fun irq hp => hb ⟨irq, _, hp⟩) fun irq hp => ?_
  exact absurd ⟨irq, _, hp⟩ hb

theorem step {w' : Watch n} {a : Act n} (hex : Exclusive w.st) (h : Attentive w)
    (hstep : w.step a = some w') (hti : w.st.timely a = true) : Attentive w' := by
  obtain ⟨st, woken⟩ := w'
  obtain ⟨ht, hwo⟩ := Watch.step_spec hstep
  subst hwo
  cases step_moves ht with
  | @run c me a k _ hcur hk =>
    refine h.own me rfl (fun _ _ => rfl) (fun x hx => ?_) ?_
    · rw [note_run hcur, if_neg fun hand => hx hand.1]
    · rw [note_run hcur]
      simp only [true_and]
      exact Heeds.runs hk (h me)
  | @enter c me _ k _ _ _ _ hk =>
    exact h.own me rfl (fun _ _ => rfl) (fun _ _ => rfl) (Heeds.enters hk (h me))
  | parkCancelled _ _ _ hb hta hpe => exact h.parkCancelled hex hb hta hpe
  | @parked c me irq e _ _ _ hb hta hpe =>
    -- Nothing has woken the call so far.
    refine h.own me rfl (fun x hx => (flags_modify _).trans (if_neg hx)) (fun _ _ => rfl)
      fun hw => ?_
    have hme := h me
    rw [hb, flags, hta] at hme
    rcases hme with ⟨-, hp⟩ | ⟨-, hp⟩
    · have := hp hw
      rw [Option.map_some, Option.any_some, hpe] at this
      cases this
    · cases hp.symm.trans hw
  | @parkCheck c me _ _ _ _ _ hst =>
    exact h.own me rfl (fun _ _ => rfl) (fun _ _ => rfl) (h.parkCheck hst)
  | @exitCheck c me _ _ _ hb =>
    have hme := h me
    rw [hb] at hme
    exact h.own me rfl (fun _ _ => rfl) (fun _ _ => rfl) hme
  | @adopt c me root e _ _ _ hb =>
    have hs : ∀ x, (w.st.modify me fun e => { e with addressSpace := some root }).flags x =
        w.st.flags x := fun x => map_modify Thread.park fun _ => rfl
    refine h.own me rfl (fun x _ => hs x) (fun _ _ => rfl) ?_
    have hme := h me
    rw [hb, ← hs] at hme
    exact hme
  | @reap c place =>
    -- Only the dead are reaped, and they are not in `park`.
    intro x
    by_cases hx : x ∈ w.st.gone
    · obtain ⟨stage, he⟩ := hex.dead x (List.mem_filter.mp hx).1
      rw [he]
      simp [Heeds, flags, relocate, hx]
    · have hs : ((relocate place fun id => if id ∈ w.st.gone then none else w.st.table id) x).map
          Thread.park = w.st.flags x := by
        rw [relocate, if_neg hx, Option.map_map]
        rfl
      rw [flags, hs]
      exact h x
  | decide => exact h.quiet rfl fun _ => flags_decided
  | switch => exact h.quiet rfl fun _ => map_storeContext Thread.park fun _ _ => rfl
  | note hta =>
    exact h.unpark hta rfl rfl rfl rfl (fun _ => rfl) (Bool.not_eq_true' _ ▸ hti)
  | wakeCurrent hta hp | wakeClaim hta hp | wake hta hp =>
    exact h.unpark hta rfl rfl rfl rfl (fun hf => absurd (hp.symm.trans hf) (by decide))
      (Bool.not_eq_true' _ ▸ hti)
  | @spawn _ _ _ _ process _ _ _ _ _ _ _ _ hta =>
    refine h.born ⟨w.st.nextId⟩ rfl (fun x => ?_) ?_
    · rw [flags, hta]
      exact park_relocate_update rfl
    · rintro ⟨irq, stage, hpa⟩
      cases process <;> cases hpa
  | initLock _ _ hta =>
    refine h.born ⟨w.st.nextId⟩ rfl (fun x => ?_) ?_
    · simp only [flags, hta]
      exact park_relocate_update rfl
    · rintro ⟨irq, stage, hpa⟩
      cases hpa
  | _ => exact h.quiet rfl fun _ => rfl

end Attentive

end Qunix.Sched
