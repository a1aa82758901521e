/-
A thread is never dispatched twice at once.

A thread can be found in several places: current on a CPU, taken by a CPU that
is about to switch to it, in a handoff slot, in a run queue, or held by a
wakeup, a spawn or a publication that is about to queue it. `places` counts them
all, with multiplicity. The invariant `Exclusive` bounds the count by one and
says what keeps it there: a parked thread may only be current or in a tagged
slot, and a thread that has left for good has no place at all.
-/

import Qunix.Lib.Run
import Qunix.Lib.Tally
import Qunix.Sched.Steps

namespace Qunix.Sched

open Function Qunix.Lib

variable {n : Nat}

/-! ### Places -/

/-- A CPU holds a thread it took from a queue, adopts as its idle thread, or is
about to publish. -/
def Phase.holding (x : ThreadId) : Phase n → Nat
  | .adopting id => if id = x then 1 else 0
  | .took _ _ id => if id = x then 1 else 0
  | .publishing id _ => if id = x then 1 else 0
  | _ => 0

theorem Phase.holding_of_window {x : ThreadId} {p : Phase n} {w : Window}
    (h : p.window = some w) : p.holding x = 0 := by
  cases p with
  | decided | stacked | rooted => rfl
  | _ => cases h

def Handoff.holdsReady (x : ThreadId) : Handoff → Nat
  | .ready id => if id = x then 1 else 0
  | _ => 0

def Handoff.holdsParked (x : ThreadId) : Handoff → Nat
  | .parked id => if id = x then 1 else 0
  | _ => 0

def namesCurrent (x : ThreadId) (o : Option ThreadId) : Nat := if o = some x then 1 else 0

namespace St

/-- Places from which a thread reaches a run queue or a CPU without a wakeup. -/
def runnable (s : St n) (x : ThreadId) : Nat :=
  tally (Phase.holding x) s.phase + tally (fun q => q.count x) s.queue +
    tally (Handoff.holdsReady x) s.handoff + s.wakes.countP (fun w => w.id == x) +
    s.spawns.countP (fun p => p.1 == x)

/-- Places a parked thread may be in. -/
def held (s : St n) (x : ThreadId) : Nat :=
  tally (namesCurrent x) s.current + tally (Handoff.holdsParked x) s.handoff

def places (s : St n) (x : ThreadId) : Nat := s.runnable x + s.held x

/-- A CPU has decided to switch to `next`, and put `v` into its slot. -/
def decided (s : St n) (c : Fin n) (next : ThreadId) (w : Window) (v : Handoff)
    (reapable : List ThreadId) : St n :=
  { s with
    current := update s.current c (some next)
    phase := update s.phase c (.decided w)
    handoff := update s.handoff c v
    reapable := reapable }

/-- The park state the table has for a thread. -/
def flags (s : St n) (x : ThreadId) : Option ParkState := (s.table x).map Thread.park

end St

/-- Inside `park`, with the outcome still open. -/
def Base.Parking (b : Base) : Prop := ∃ irq stage, b = .park irq stage ∧ stage ≠ .done

/-- Inside `exit_current`. -/
def Base.Exiting (b : Base) : Prop := ∃ stage, b = .exit stage

open St in
structure Exclusive (s : St n) : Prop where
  once : ∀ x, s.places x ≤ 1
  live : ∀ x, 0 < s.places x → (s.flags x).isSome ∧ x ∉ s.reapable
  fresh : ∀ x, (s.flags x).isSome ∨ x ∈ s.reapable → x.val < s.nextId
  /-- A noted wakeup and a parked flag exclude each other. -/
  sober : ∀ x p, s.flags x = some p → p.parked = true → p.pending = false
  parkedHeld : ∀ x, s.parked x = true → s.runnable x = 0
  parkedBase : ∀ x, s.parked x = true → (s.base x).Parking
  tagged : ∀ c x, s.handoff c = .parked x → s.parked x = true
  slot : ∀ c, s.handoff c ≠ .empty → (s.phase c).window.isSome ∨ s.phase c = .landed
  exiting : ∀ c x, (s.phase c).choosing = some .exited → s.current c = some x →
    (s.base x).Exiting
  dead : ∀ x ∈ s.reapable, (s.base x).Exiting
  outgoing : ∀ c w, (s.phase c).window = some w →
    s.handoff c = .ready w.outgoing ∨ s.handoff c = .parked w.outgoing ∨
      (s.handoff c = .empty ∧ w.outgoing.val < s.nextId ∧
        (w.outgoing ∈ s.reapable ∨ s.flags w.outgoing = none))

namespace St

variable {s t : St n} {c d : Fin n} {x me id : ThreadId}

/-! ### How updates move the counts -/

theorem runnable_setPhase (p : Phase n) :
    (s.setPhase c p).runnable x + (s.phase c).holding x = s.runnable x + p.holding x := by
  have := tally_update (f := Phase.holding x) (g := s.phase) (i := c) p
  simp only [runnable, setPhase]
  omega

theorem runnable_queue (q : RunQueue) :
    { s with queue := update s.queue d q }.runnable x + (s.queue d).count x =
      s.runnable x + q.count x := by
  have := tally_update (f := fun q => q.count x) (g := s.queue) (i := d) q
  simp only [runnable]
  omega

theorem runnable_handoff (v : Handoff) :
    { s with handoff := update s.handoff c v }.runnable x + (s.handoff c).holdsReady x =
      s.runnable x + v.holdsReady x := by
  have := tally_update (f := Handoff.holdsReady x) (g := s.handoff) (i := c) v
  simp only [runnable]
  omega

theorem held_handoff (v : Handoff) :
    { s with handoff := update s.handoff c v }.held x + (s.handoff c).holdsParked x =
      s.held x + v.holdsParked x := by
  have := tally_update (f := Handoff.holdsParked x) (g := s.handoff) (i := c) v
  simp only [held]
  omega

theorem held_current (v : Option ThreadId) :
    { s with current := update s.current c v }.held x + namesCurrent x (s.current c) =
      s.held x + namesCurrent x v := by
  have := tally_update (f := namesCurrent x) (g := s.current) (i := c) v
  simp only [held]
  omega

theorem held_pos_of_current (h : s.current c = some x) : 0 < s.held x := by
  have := le_tally (f := namesCurrent x) (g := s.current) c
  simp only [h, namesCurrent, if_true] at this
  simp only [held]
  omega

theorem held_pos_of_parked_slot (h : s.handoff c = .parked x) : 0 < s.held x := by
  have := le_tally (f := Handoff.holdsParked x) (g := s.handoff) c
  simp only [h, Handoff.holdsParked, if_true] at this
  simp only [held]
  omega

theorem holding_le_runnable : (s.phase c).holding x ≤ s.runnable x := by
  have := le_tally (f := Phase.holding x) (g := s.phase) c
  simp only [runnable]
  omega

theorem count_le_runnable : (s.queue c).count x ≤ s.runnable x := by
  have := le_tally (f := fun q => q.count x) (g := s.queue) c
  simp only [runnable]
  omega

theorem held_eq_zero (hcur : ∀ c, s.current c ≠ some x) (hs : ∀ c, s.handoff c ≠ .parked x) :
    s.held x = 0 := by
  have hc : tally (namesCurrent x) s.current = 0 := tally_eq_zero.mpr fun c => if_neg (hcur c)
  have hh : tally (Handoff.holdsParked x) s.handoff = 0 := tally_eq_zero.mpr fun c => by
    have := hs c
    cases hv : s.handoff c with
    | empty | ready id => rfl
    | parked id =>
      refine if_neg fun heq => this ?_
      rw [hv, heq]
  simp [held, hc, hh]

/-! ### Flags -/

theorem parked_eq : s.parked x = (s.flags x).any ParkState.parked := by
  unfold parked flags
  cases s.table x <;> rfl

theorem parked_iff : s.parked x = true ↔ ∃ p, s.flags x = some p ∧ p.parked = true := by
  rw [parked_eq, Option.any_eq_true_iff_get]
  constructor
  · rintro ⟨hs, hp⟩
    exact ⟨_, (Option.some_get hs).symm, hp⟩
  · rintro ⟨p, hf, hp⟩
    simp [hf, hp]

theorem parked_congr (h : t.flags x = s.flags x) : t.parked x = s.parked x := by
  rw [parked_eq, parked_eq, h]

theorem flags_modify (f : Thread n → Thread n) :
    (s.modify id f).flags x =
      if x = id then (s.table x).map fun e => (f e).park else s.flags x := by
  simp only [flags, modify_table]
  split
  · rw [Option.map_map]
    rfl
  · rfl

@[simp] theorem isSome_flags_modify (f : Thread n → Thread n) :
    ((s.modify id f).flags x).isSome = (s.flags x).isSome := by
  simp only [flags, Option.isSome_map, isSome_modify]

theorem flags_modify_eq_none {f : Thread n → Thread n} :
    (s.modify id f).flags x = none ↔ s.flags x = none := by
  rw [← Option.isNone_iff_eq_none, ← Option.isNone_iff_eq_none, ← Option.not_isSome,
    ← Option.not_isSome, isSome_flags_modify]

theorem flags_decided {out : ThreadState} {next : ThreadId} :
    ((s.handOn c me out).modify next fun e => { e with state := .running }).flags x = s.flags x :=
  map_decided Thread.park fun _ _ => rfl

/-- Inserting an entry, wherever the table puts it and the others. -/
theorem park_relocate_update {place : ThreadId → Nat} {e : Thread n} (he : e.park = .fresh) :
    (relocate place (update s.table id (some e)) x).map Thread.park =
      if x = id then some .fresh else s.flags x := by
  rcases eq_or_ne x id with rfl | hx
  · simp [relocate, he]
  · rw [if_neg hx, relocate, update_of_ne hx, Option.map_map]
    rfl

end St

namespace Exclusive

open St

variable {s t : St n} {c d : Fin n} {x me id : ThreadId}

/-! ### Consequences of the invariant -/

section

variable (h : Exclusive s)

include h

theorem places_current (hcur : s.current c = some x) :
    s.runnable x = 0 ∧ s.held x = 1 := by
  have hpos := held_pos_of_current hcur
  have hone := h.once x
  simp only [places] at hone
  omega

theorem current_inj (hc : s.current c = some x) (hd : s.current d = some x) :
    c = d := by
  by_contra hne
  have hsum := add_le_tally (f := namesCurrent x) (g := s.current) hne
  simp only [hc, hd, namesCurrent, if_true] at hsum
  have hone := h.once x
  simp only [places, held] at hone
  omega

theorem live_held (hx : 0 < s.held x) : (s.flags x).isSome ∧ x ∉ s.reapable :=
  h.live x (Nat.lt_of_lt_of_le hx (Nat.le_add_left _ _))

theorem live_current (hcur : s.current c = some x) :
    (s.flags x).isSome ∧ x ∉ s.reapable := h.live_held (held_pos_of_current hcur)

theorem slot_empty (hwin : (s.phase c).window = none)
    (hla : s.phase c ≠ .landed) : s.handoff c = .empty := by
  by_contra hne
  rcases h.slot c hne with hs | hl
  · rw [hwin] at hs
    cases hs
  · exact hla hl

theorem not_parked_of_exiting (hb : (s.base x).Exiting) :
    s.parked x = false := by
  rw [Bool.eq_false_iff]
  intro hp
  obtain ⟨irq, stage, hpa, -⟩ := h.parkedBase x hp
  obtain ⟨stage', he⟩ := hb
  rw [hpa] at he
  cases he

theorem places_eq_zero (hx : x ∈ s.reapable ∨ s.flags x = none) :
    s.places x = 0 := by
  by_contra hne
  obtain ⟨hs, hr⟩ := h.live x (Nat.pos_of_ne_zero hne)
  rcases hx with hx | hx
  · exact hr hx
  · rw [hx] at hs
    cases hs

theorem current_ne_nextId (hcur : s.current c = some x) : x ≠ ⟨s.nextId⟩ := by
  rintro rfl
  exact Nat.lt_irrefl _ (h.fresh _ (.inl (h.live_current hcur).1))

/-- A CPU's idle thread is nowhere else while the CPU adopts it. -/
theorem adopting_ne (hp : s.phase d = .adopting id) :
    id ≠ ⟨s.nextId⟩ ∧ ∀ c, s.current c ≠ some id := by
  have hh := holding_le_runnable (s := s) (c := d) (x := id)
  simp only [hp, Phase.holding, if_true] at hh
  constructor
  · rintro rfl
    have hl := (h.live _ (Nat.lt_of_lt_of_le hh (Nat.le_add_right _ _))).1
    exact Nat.lt_irrefl _ (h.fresh _ (.inl hl))
  · intro c hcur
    have := h.places_current hcur
    omega

theorem places_nextId : s.places ⟨s.nextId⟩ = 0 := by
  refine h.places_eq_zero (.inr ?_)
  by_contra hne
  have := h.fresh ⟨s.nextId⟩ (.inl (Option.isSome_iff_ne_none.mpr hne))
  exact Nat.lt_irrefl _ this

end

/-! ### Elementary updates -/

variable {table : ThreadId → Option (Thread n)} {b : Base} {queue : Fin n → RunQueue}
  {wakes : List (Wake n)} {spawns : List (ThreadId × Priority)} {p : Phase n}
  {f : Thread n → Thread n} {out : ThreadState} {irq : Bool} {w : Window} {next : ThreadId}
  {v : Handoff}

variable (h : Exclusive s)

include h

theorem setTable (ht : ∀ x, (table x).map Thread.park = s.flags x) :
    Exclusive { s with table := table } := by
  have hp : ∀ x, { s with table := table }.parked x = s.parked x := fun x =>
    parked_congr (ht x)
  constructor
  · exact h.once
  · exact fun x hx => by simpa [flags, ht] using h.live x hx
  · exact fun x hx => h.fresh x (by simpa [flags, ht] using hx)
  · exact fun x p hx => h.sober x p ((ht x).symm.trans hx)
  · exact fun x hx => h.parkedHeld x ((hp x).symm.trans hx)
  · exact fun x hx => h.parkedBase x ((hp x).symm.trans hx)
  · exact fun c x hx => (hp x).trans (h.tagged c x hx)
  · exact h.slot
  · exact h.exiting
  · exact h.dead
  · intro c w hw
    simp only [flags, ht]
    exact h.outgoing c w hw

theorem setBase (hp : s.phase c = .run) (hcur : s.current c = some me)
    (hb : s.parked me = true → b.Parking) : Exclusive (s.setBase me b) := by
  have hk : ∀ x, x ≠ me → (s.setBase me b).base x = s.base x := fun x hx => update_of_ne hx _ _
  refine { h with parkedBase := ?_, exiting := ?_, dead := ?_ }
  · intro x hx
    rcases eq_or_ne x me with rfl | hxm
    · simpa using hb hx
    · rw [hk x hxm]
      exact h.parkedBase x hx
  · intro d x hd hx
    have hxm : x ≠ me := by
      rintro rfl
      obtain rfl := h.current_inj hcur hx
      have hn : (s.phase c).choosing = none := by rw [hp]; rfl
      rw [St.setBase, hn] at hd
      cases hd
    rw [hk x hxm]
    exact h.exiting d x hd hx
  · intro x hx
    have hxm : x ≠ me := by
      rintro rfl
      exact (h.live_current hcur).2 hx
    rw [hk x hxm]
    exact h.dead x hx

/-- Counts that do not grow keep what the invariant says about them. -/
theorem counts_le (hr : ∀ x, t.runnable x ≤ s.runnable x) (hh : ∀ x, t.held x ≤ s.held x)
    (hf : t.table = s.table) (hre : t.reapable = s.reapable) :
    (∀ x, t.places x ≤ 1) ∧ (∀ x, 0 < t.places x → (t.flags x).isSome ∧ x ∉ t.reapable) ∧
      ∀ x, t.parked x = true → t.runnable x = 0 := by
  have hpl : ∀ x, t.places x ≤ s.places x := fun x => Nat.add_le_add (hr x) (hh x)
  refine ⟨fun x => (hpl x).trans (h.once x), fun x hx => ?_, fun x hx => ?_⟩
  · rw [flags, hf, hre]
    exact h.live x (Nat.lt_of_lt_of_le hx (hpl x))
  · rw [parked, hf] at hx
    exact Nat.le_zero.mp ((hr x).trans (Nat.le_of_eq (h.parkedHeld x hx)))

section Phases

variable (hs : s.handoff c ≠ .empty → p.window.isSome ∨ p = .landed)
  (he : p.choosing = some .exited → ∀ x, s.current c = some x → (s.base x).Exiting)
  (hwin : ∀ w, p.window = some w → (s.phase c).window = some w)

include hs he hwin

theorem move
    (hle : ∀ x,
      ({ s with queue := queue, wakes := wakes, spawns := spawns }.setPhase c p).runnable x ≤
        s.runnable x) :
    Exclusive ({ s with queue := queue, wakes := wakes, spawns := spawns }.setPhase c p) := by
  obtain ⟨once, live, parkedHeld⟩ := h.counts_le hle (fun _ => le_rfl) rfl rfl
  refine { h with once, live, parkedHeld, slot := ?_, exiting := ?_, outgoing := ?_ }
  · intro d hd
    rcases eq_or_ne d c with rfl | hdc
    · simpa using hs hd
    · simpa [setPhase, update_of_ne hdc] using h.slot d hd
  · intro d x hd hx
    rcases eq_or_ne d c with rfl | hdc
    · exact he (by simpa using hd) x hx
    · exact h.exiting d x (by simpa [setPhase, update_of_ne hdc] using hd) hx
  · exact fun d w hw => h.outgoing d w (eq_of_update Phase.window hw (hwin w))

theorem setPhase (hh : ∀ x, p.holding x ≤ (s.phase c).holding x) :
    Exclusive (s.setPhase c p) := by
  refine h.move hs he hwin fun x => ?_
  change (s.setPhase c p).runnable x ≤ s.runnable x
  have := runnable_setPhase (s := s) (c := c) (x := x) p
  have := hh x
  omega

end Phases

theorem setFlags {p : ParkState} (hp : (s.modify me f).flags me = some p)
    (hs : p.parked = true → p.pending = false) (hh : p.parked = true → s.runnable me = 0)
    (hb : p.parked = true → (s.base me).Parking)
    (htag : ∀ d, s.handoff d = .parked me → p.parked = true) : Exclusive (s.modify me f) := by
  have ho : ∀ x, x ≠ me → (s.modify me f).flags x = s.flags x := fun x hx => by
    rw [flags_modify, if_neg hx]
  have hparked : ∀ x, x ≠ me → (s.modify me f).parked x = s.parked x := fun x hx =>
    parked_congr (ho x hx)
  have hpa : (s.modify me f).parked me = p.parked := by rw [parked_eq, hp]; rfl
  refine { h with live := ?_, fresh := ?_, sober := ?_, parkedHeld := ?_, parkedBase := ?_,
                  tagged := ?_, outgoing := ?_ }
  · intro x hx
    rw [isSome_flags_modify]
    exact h.live x hx
  · intro x hx
    rw [isSome_flags_modify] at hx
    exact h.fresh x hx
  · intro x q hq
    rcases eq_or_ne x me with rfl | hx
    · obtain rfl : p = q := Option.mem_unique hp hq
      exact hs
    · exact h.sober x q ((ho x hx).symm.trans hq)
  · intro x hx
    rcases eq_or_ne x me with rfl | hxm
    · exact hh (hpa.symm.trans hx)
    · exact h.parkedHeld x ((hparked x hxm).symm.trans hx)
  · intro x hx
    rcases eq_or_ne x me with rfl | hxm
    · exact hb (hpa.symm.trans hx)
    · exact h.parkedBase x ((hparked x hxm).symm.trans hx)
  · intro d x hx
    rcases eq_or_ne x me with rfl | hxm
    · rw [hpa]
      exact htag d hx
    · rw [hparked x hxm]
      exact h.tagged d x hx
  · intro d w hw
    rw [flags_modify_eq_none]
    exact h.outgoing d w hw

theorem bury (table : ThreadId → Option (Thread n))
    (ht : ∀ x, (table x).map Thread.park = if x ∈ s.gone then none else s.flags x) :
    Exclusive { s with
      table := table
      reapable := s.reapable.filter s.isCurrentAnywhere } := by
  have hsub : ∀ x, x ∈ s.gone → x ∈ s.reapable := fun x hx => (List.mem_filter.mp hx).1
  have hk : ∀ x, x ∉ s.reapable → (table x).map Thread.park = s.flags x := fun x hx => by
    rw [ht, if_neg fun hg => hx (hsub x hg)]
  have hb : ∀ x p, (table x).map Thread.park = some p → s.flags x = some p := fun x p hx => by
    rw [ht] at hx
    split_ifs at hx
    exact hx
  have hpa : ∀ x, { s with table := table }.parked x = true → s.parked x = true := by
    intro x hx
    obtain ⟨p, hf, hp⟩ := parked_iff.mp hx
    exact parked_iff.mpr ⟨p, hb x p hf, hp⟩
  refine { h with live := ?_, fresh := ?_, sober := ?_, parkedHeld := ?_, parkedBase := ?_,
                  tagged := ?_, dead := ?_, outgoing := ?_ }
  · intro x hx
    obtain ⟨hs, hre⟩ := h.live x hx
    refine ⟨?_, fun hmem => hre (List.mem_filter.mp hmem).1⟩
    rw [flags, hk x hre]
    exact hs
  · intro x hx
    refine h.fresh x (hx.imp (fun hs => ?_) fun hmem => (List.mem_filter.mp hmem).1)
    obtain ⟨p, hp⟩ := Option.isSome_iff_exists.mp hs
    rw [hb x p hp]
    rfl
  · exact fun x p hx => h.sober x p (hb x p hx)
  · exact fun x hx => h.parkedHeld x (hpa x hx)
  · exact fun x hx => h.parkedBase x (hpa x hx)
  · intro d x hx
    have hre : x ∉ s.reapable := (h.live_held (s.held_pos_of_parked_slot hx)).2
    have hsa : { s with table := table }.parked x = s.parked x := parked_congr (hk x hre)
    exact hsa.trans (h.tagged d x hx)
  · exact fun x hx => h.dead x (List.mem_filter.mp hx).1
  · intro d w hw
    rcases h.outgoing d w hw with hr | hr | ⟨hsl, hlt, hr⟩
    · exact .inl hr
    · exact .inr (.inl hr)
    · refine .inr (.inr ⟨hsl, hlt, ?_⟩)
      rcases hr with hr | hr
      · by_cases hcur : s.isCurrentAnywhere w.outgoing = true
        · exact .inl (List.mem_filter.mpr ⟨hr, hcur⟩)
        · have hgo : w.outgoing ∈ s.gone := List.mem_filter.mpr ⟨hr, by simp [hcur]⟩
          refine .inr ?_
          rw [flags, ht, if_pos hgo]
      · refine .inr ?_
        rw [flags, ht, hr, ite_self]

theorem take {q : RunQueue} (hwin : (s.phase c).window = none)
    (hl : s.phase c ≠ .landed) (hout : (s.phase c).choosing = some out)
    (hc : ∀ x, (s.queue d).count x = q.count x + if id = x then 1 else 0) :
    Exclusive ({ s with queue := update s.queue d q }.setPhase c (.took out irq id)) := by
  have he := h.slot_empty hwin hl
  refine h.move (fun hne => absurd he hne) (fun hex => ?_) (by simp [Phase.window]) fun x => ?_
  · obtain rfl : out = .exited := Option.some.inj hex
    exact fun x => h.exiting c x hout
  · have hp : _ + (s.phase c).holding x = _ + (if id = x then 1 else 0) :=
      runnable_setPhase (s := { s with queue := update s.queue d q }) (.took out irq id)
    have hq := runnable_queue (s := s) (d := d) (x := x) q
    have := hc x
    omega

theorem look (hwin : (s.phase c).window = none) (hl : s.phase c ≠ .landed)
    (hh : ∀ x, p.holding x = 0) (hout : p.choosing = none ∨ p.choosing = (s.phase c).choosing)
    (hwin' : p.window = none) :
    Exclusive (s.setPhase c p) := by
  have hem := h.slot_empty hwin hl
  refine h.setPhase (fun hne => absurd hem hne) (fun he => ?_) (by simp [hwin']) fun x => ?_
  · rcases hout with hout | hout
    · rw [hout] at he
      cases he
    · exact fun x => h.exiting c x (hout ▸ he)
  · rw [hh]
    exact Nat.zero_le _

theorem advance (hwin : (s.phase c).window = some w) (hp : p.window = some w) :
    Exclusive (s.setPhase c p) := by
  refine h.setPhase (fun _ => .inl (by rw [hp]; rfl)) (by simp [Phase.choosing_of_window hp])
    (fun w' hw' => ?_) fun x => ?_
  · rw [hwin, ← hp, hw']
  · rw [Phase.holding_of_window hp]
    exact Nat.zero_le _

/-- The counts after a decision: `next` was taken and becomes current, and `me`
was current and goes into the slot. -/
theorem counts_decide (hph : s.phase c = .took out irq next) (hcur : s.current c = some me)
    (reapable : List ThreadId) (x : ThreadId) :
    (s.decided c next w v reapable).runnable x + (if next = x then 1 else 0) =
        s.runnable x + v.holdsReady x ∧
      (s.decided c next w v reapable).held x + (if me = x then 1 else 0) =
        s.held x + (if next = x then 1 else 0) + v.holdsParked x := by
  have he : s.handoff c = .empty := h.slot_empty (by rw [hph]; rfl) (by simp [hph])
  have hp := tally_update (f := Phase.holding x) (g := s.phase) (i := c) (.decided w)
  have hr := tally_update (f := Handoff.holdsReady x) (g := s.handoff) (i := c) v
  have hk := tally_update (f := Handoff.holdsParked x) (g := s.handoff) (i := c) v
  have hn := tally_update (f := namesCurrent x) (g := s.current) (i := c) (some next)
  rw [hph] at hp
  rw [he] at hr hk
  rw [hcur] at hn
  change _ + (if next = x then 1 else 0) = _ + 0 at hp
  change _ + 0 = _ at hr hk
  simp only [namesCurrent, Option.some.injEq] at hn
  simp only [runnable, held, decided]
  constructor
  · omega
  · omega

/-- After a decision the slot of the CPU is covered by its window. -/
theorem slot_decided (v : Handoff) (w : Window) (d : Fin n)
    (hd : update s.handoff c v d ≠ .empty) :
    (update s.phase c (.decided w) d).window.isSome ∨
      update s.phase c (.decided w) d = .landed := by
  rcases eq_or_ne d c with rfl | hdc
  · rw [update_self]
    exact .inl rfl
  · rw [update_of_ne hdc] at hd ⊢
    exact h.slot d hd

theorem exiting_decided (next : ThreadId) (w : Window) (d : Fin n) (x : ThreadId)
    (hd : (update s.phase c (.decided w) d).choosing = some .exited)
    (hx : update s.current c (some next) d = some x) : (s.base x).Exiting := by
  rcases eq_or_ne d c with rfl | hdc
  · rw [update_self] at hd
    cases hd
  · rw [update_of_ne hdc] at hd hx
    exact h.exiting d x hd hx

theorem handOff (hph : s.phase c = .took out irq next)
    (hcur : s.current c = some me) (hw : w.outgoing = me)
    (hv : v = if s.parked me then .parked me else .ready me) :
    Exclusive (s.decided c next w v s.reapable) := by
  have hc := h.counts_decide (v := v) (w := w) hph hcur s.reapable
  have hsl : ∀ x, v.holdsReady x + v.holdsParked x = if me = x then 1 else 0 := fun x => by
    rw [hv]
    split
    · exact Nat.zero_add _
    · rfl
  have hpl : ∀ x, (s.decided c next w v s.reapable).places x = s.places x := fun x => by
    have hx := hc x
    have hs := hsl x
    simp only [places]
    omega
  refine { h with once := ?_, live := ?_, parkedHeld := ?_, tagged := ?_, slot := ?_,
                  exiting := ?_, outgoing := ?_ }
  · intro x
    rw [hpl]
    exact h.once x
  · intro x hx
    rw [hpl] at hx
    exact h.live x hx
  · intro x hx
    have hz := h.parkedHeld x hx
    have hr : v.holdsReady x = 0 := by
      rw [hv]
      split_ifs with hnot
      · rfl
      · refine if_neg ?_
        rintro rfl
        exact hnot hx
    have := (hc x).1
    omega
  · intro d x hx
    rcases eq_or_ne d c with rfl | hdc
    · simp only [decided, update_self, hv] at hx
      split_ifs at hx with hp
      cases hx
      exact hp
    · exact h.tagged d x (by simpa [decided, update_of_ne hdc] using hx)
  · exact h.slot_decided v w
  · exact h.exiting_decided next w
  · intro d w' hw'
    rcases eq_or_ne d c with rfl | hdc
    · simp only [decided, update_self] at hw' ⊢
      obtain rfl : w = w' := Option.some.inj hw'
      rw [hv, hw]
      split
      · exact .inr (.inl rfl)
      · exact .inl rfl
    · simp only [decided, update_of_ne hdc] at hw' ⊢
      exact h.outgoing d w' hw'

theorem leave (hp : s.phase c = .took .exited irq next)
    (hcur : s.current c = some me) (hw : w.outgoing = me) :
    Exclusive (s.decided c next w .empty (s.reapable ++ [me])) := by
  have hco : ∀ x, _ + _ = _ + 0 ∧ _ + _ = _ + _ + 0 :=
    h.counts_decide (v := .empty) (w := w) hp hcur (s.reapable ++ [me])
  have hl := h.live_current hcur
  refine { h with once := ?_, live := ?_, fresh := ?_, parkedHeld := ?_, tagged := ?_, slot := ?_,
                  exiting := ?_, dead := ?_, outgoing := ?_ }
  · intro x
    have hx := hco x
    have hone := h.once x
    simp only [places] at hone ⊢
    omega
  · intro x hx
    have hc := hco x
    have hne : me ≠ x := by
      rintro rfl
      have := h.places_current hcur
      simp only [if_true, places] at hc hx
      omega
    obtain ⟨hs, hre⟩ := h.live x (by simp only [places] at hx ⊢; omega)
    refine ⟨hs, fun hmem => ?_⟩
    rcases List.mem_append.mp hmem with hmem | hmem
    · exact hre hmem
    · exact hne (List.mem_singleton.mp hmem).symm
  · rintro x (hx | hx)
    · exact h.fresh x (.inl hx)
    · rcases List.mem_append.mp hx with hx | hx
      · exact h.fresh x (.inr hx)
      · obtain rfl := List.mem_singleton.mp hx
        exact h.fresh x (.inl hl.1)
  · intro x hx
    have hz := h.parkedHeld x hx
    have := (hco x).1
    omega
  · exact fun d x hx => h.tagged d x (eq_of_update id hx nofun)
  · exact h.slot_decided .empty w
  · exact h.exiting_decided next w
  · intro x hx
    rcases List.mem_append.mp hx with hx | hx
    · exact h.dead x hx
    · obtain rfl := List.mem_singleton.mp hx
      exact h.exiting c x (by rw [hp]; rfl) hcur
  · intro d w' hw'
    rcases eq_or_ne d c with rfl | hdc
    · simp only [decided, update_self] at hw' ⊢
      obtain rfl : w = w' := Option.some.inj hw'
      rw [hw]
      exact .inr (.inr ⟨trivial, h.fresh me (.inl hl.1), .inl (by simp)⟩)
    · simp only [decided, update_of_ne hdc] at hw' ⊢
      rcases h.outgoing d w' hw' with hr | hr | ⟨hsl, hlt, hr⟩
      · exact .inl hr
      · exact .inr (.inl hr)
      · exact .inr (.inr ⟨hsl, hlt, hr.imp_left fun hr => List.mem_append.mpr (.inl hr)⟩)

/-- The slot is emptied; what it held may be on its way to the queue. -/
theorem publish (hph : s.phase c = .landed)
    (hho : ∀ x, p.holding x ≤ (s.handoff c).holdsReady x) (hc : p.choosing = none)
    (hwin : p.window = none) :
    Exclusive ({ s with handoff := update s.handoff c .empty }.setPhase c p) := by
  have hrun : ∀ x, ({ s with handoff := update s.handoff c .empty }.setPhase c p).runnable x ≤
      s.runnable x := fun x => by
    have hp : _ + (s.phase c).holding x = _ + _ :=
      runnable_setPhase (s := { s with handoff := update s.handoff c .empty }) p
    have hr : _ + _ = _ + 0 := runnable_handoff (s := s) (c := c) (x := x) .empty
    have := hho x
    omega
  have hh : ∀ x, { s with handoff := update s.handoff c .empty }.held x ≤ s.held x := fun x => by
    have hr : _ + _ = _ + 0 := held_handoff (s := s) (c := c) (x := x) .empty
    omega
  obtain ⟨once, live, parkedHeld⟩ := h.counts_le hrun hh rfl rfl
  refine { h with once, live, parkedHeld, tagged := ?_, slot := ?_, exiting := ?_, outgoing := ?_ }
  · exact fun d x hx => h.tagged d x (eq_of_update id hx nofun)
  · intro d hd
    rcases eq_or_ne d c with rfl | hdc
    · exact absurd (by simp [St.setPhase]) hd
    · simp only [St.setPhase, update_of_ne hdc] at hd ⊢
      exact h.slot d hd
  · exact fun d x hd hx => h.exiting d x (eq_of_update Phase.choosing hd (by simp [hc])) hx
  · intro d w hw
    rcases eq_or_ne d c with rfl | hdc
    · simp only [St.setPhase, update_self, hwin] at hw
      cases hw
    · simp only [St.setPhase, update_of_ne hdc] at hw ⊢
      exact h.outgoing d w hw

/-- The wakeup claims the tagged slot: the switch in progress will queue it. -/
theorem claim {b : Bool} (hs : s.handoff c = .parked id)
    (hp : (s.modify id f).flags id = some ⟨false, b⟩) :
    Exclusive { s.modify id f with handoff := update s.handoff c (.ready id) } := by
  have ho : ∀ x, x ≠ id → (s.modify id f).flags x = s.flags x := fun x hx => by
    rw [flags_modify, if_neg hx]
  have hb : ∀ x, (s.modify id f).parked x = true → x ≠ id ∧ s.parked x = true := fun x hx => by
    have hne : x ≠ id := by
      rintro rfl
      rw [parked_eq, hp] at hx
      cases hx
    exact ⟨hne, (parked_congr (ho x hne)).symm.trans hx⟩
  have hrun : ∀ x, { s with handoff := update s.handoff c (.ready id) }.runnable x =
      s.runnable x + if id = x then 1 else 0 := fun x => by
    have hr := runnable_handoff (s := s) (c := c) (x := x) (.ready id)
    rw [hs] at hr
    exact hr
  have hpl : ∀ x, { s with handoff := update s.handoff c (.ready id) }.places x = s.places x :=
    fun x => by
      have hr := hrun x
      have hh : _ + _ = _ + 0 := held_handoff (s := s) (c := c) (x := x) (.ready id)
      rw [hs] at hh
      change _ + (if id = x then 1 else 0) = _ at hh
      simp only [places]
      omega
  refine { h with once := ?_, live := ?_, fresh := ?_, sober := ?_, parkedHeld := ?_,
                  parkedBase := ?_, tagged := ?_, slot := ?_, outgoing := ?_ }
  · exact fun x => (Nat.le_of_eq (hpl x)).trans (h.once x)
  · intro x hx
    obtain ⟨hso, hre⟩ := h.live x (Nat.lt_of_lt_of_eq hx (hpl x))
    exact ⟨(isSome_flags_modify f).trans hso, hre⟩
  · intro x hx
    exact h.fresh x (hx.imp_left fun hx => (isSome_flags_modify f).symm.trans hx)
  · intro x p hx
    rcases eq_or_ne x id with rfl | hxi
    · obtain rfl : (⟨false, b⟩ : ParkState) = p := Option.mem_unique hp hx
      exact fun hf => Bool.noConfusion hf
    · exact h.sober x p ((ho x hxi).symm.trans hx)
  · intro x hx
    obtain ⟨hne, hpx⟩ := hb x hx
    have hr := hrun x
    rw [if_neg hne.symm, h.parkedHeld x hpx] at hr
    exact hr
  · exact fun x hx => h.parkedBase x (hb x hx).2
  · intro d x hx
    rcases eq_or_ne d c with rfl | hdc
    · simp only [update_self] at hx
      cases hx
    · simp only [update_of_ne hdc] at hx
      have hne : x ≠ id := by
        rintro rfl
        have hsum := add_le_tally (f := Handoff.holdsParked x) (g := s.handoff) hdc
        simp only [hx, hs, Handoff.holdsParked, if_true] at hsum
        have hone := h.once x
        simp only [places, held] at hone
        omega
      have hsa : (s.modify id f).parked x = s.parked x := parked_congr (ho x hne)
      exact hsa.trans (h.tagged d x hx)
  · intro d hd
    rcases eq_or_ne d c with rfl | hdc
    · exact h.slot d (by rw [hs]; exact Handoff.noConfusion)
    · exact h.slot d (by simpa [update_of_ne hdc] using hd)
  · intro d w hw
    rcases eq_or_ne d c with rfl | hdc
    · simp only [update_self]
      rcases h.outgoing d w hw with hr | hr | ⟨hr, -⟩
      · rw [hs] at hr
        cases hr
      · rw [hs] at hr
        cases hr
        exact .inl rfl
      · rw [hs] at hr
        cases hr
    · simp only [update_of_ne hdc]
      rcases h.outgoing d w hw with hr | hr | ⟨hr, hlt, hde⟩
      · exact .inl hr
      · exact .inr (.inl hr)
      · exact .inr (.inr ⟨hr, hlt, hde.imp_right flags_modify_eq_none.mpr⟩)

theorem enlist (id : ThreadId) {phase : Fin n → Phase n} (hn : s.places id = 0)
    (hs : (s.flags id).isSome) (hr : id ∉ s.reapable) (hpa : s.parked id = false)
    (hrun : ∀ x, { s with phase := phase, wakes := wakes, spawns := spawns }.runnable x ≤
      s.runnable x + if id = x then 1 else 0)
    (hp : ∀ c, (phase c).window = (s.phase c).window ∧ (phase c).choosing = (s.phase c).choosing ∧
      (s.phase c = .landed → phase c = .landed)) :
    Exclusive { s with phase := phase, wakes := wakes, spawns := spawns } := by
  refine { h with once := ?_, live := ?_, parkedHeld := ?_, slot := ?_, exiting := ?_,
                  outgoing := ?_ }
  · intro x
    have hx := hrun x
    have hone := h.once x
    simp only [places] at hone hn ⊢
    change _ + s.held x ≤ 1
    split_ifs at hx with hid
    · subst hid
      omega
    · omega
  · intro x hx
    rcases eq_or_ne id x with rfl | hid
    · exact ⟨hs, hr⟩
    · have hle := hrun x
      rw [if_neg hid] at hle
      exact h.live x (Nat.lt_of_lt_of_le hx (Nat.add_le_add_right hle _))
  · intro x hx
    have hid : id ≠ x := by
      rintro rfl
      exact Bool.false_ne_true (hpa.symm.trans hx)
    have hle := hrun x
    rw [if_neg hid, h.parkedHeld x hx] at hle
    exact Nat.le_zero.mp hle
  · intro c hc
    simp only [(hp c).1]
    exact (h.slot c hc).imp_right (hp c).2.2
  · intro c x hc hx
    exact h.exiting c x ((hp c).2.1.symm.trans hc) hx
  · intro c w hw
    exact h.outgoing c w ((hp c).1.symm.trans hw)

theorem requeue
    (hle : ∀ x,
      { s with queue := queue, wakes := wakes, spawns := spawns }.runnable x ≤ s.runnable x) :
    Exclusive { s with queue := queue, wakes := wakes, spawns := spawns } := by
  obtain ⟨once, live, parkedHeld⟩ := h.counts_le hle (fun _ => le_rfl) rfl rfl
  exact { h with once, live, parkedHeld }

theorem fresh_nextId : ⟨s.nextId⟩ ∉ s.reapable := fun hmem =>
  Nat.lt_irrefl _ (h.fresh ⟨s.nextId⟩ (.inr hmem))

theorem register
    (ht : ∀ x, (table x).map Thread.park = if x = ⟨s.nextId⟩ then some .fresh else s.flags x) :
    Exclusive { s with
      table := table
      nextId := s.nextId + 1
      base := update s.base ⟨s.nextId⟩ b } := by
  have hold : ∀ x : ThreadId, x.val < s.nextId → x ≠ ⟨s.nextId⟩ := fun x hx heq => by
    rw [heq] at hx
    exact Nat.lt_irrefl _ hx
  have hk : ∀ x, x ≠ ⟨s.nextId⟩ → (table x).map Thread.park = s.flags x := fun x hx => by
    rw [ht, if_neg hx]
  have hpl : ∀ x, 0 < s.places x → x ≠ ⟨s.nextId⟩ := fun x hx heq => by
    rw [heq, h.places_nextId] at hx
    exact Nat.lt_irrefl _ hx
  have hpa : ∀ x, { s with table := table }.parked x = true → x ≠ ⟨s.nextId⟩ ∧
      s.parked x = true := fun x hx => by
    have hne : x ≠ ⟨s.nextId⟩ := by
      rintro rfl
      obtain ⟨p, hp, hpk⟩ := parked_iff.mp hx
      rw [flags, ht, if_pos rfl] at hp
      cases hp
      cases hpk
    have hs : { s with table := table }.parked x = s.parked x := parked_congr (hk x hne)
    exact ⟨hne, hs.symm.trans hx⟩
  refine { h with live := ?_, fresh := ?_, sober := ?_, parkedHeld := ?_, parkedBase := ?_,
                  tagged := ?_, exiting := ?_, dead := ?_, outgoing := ?_ }
  · intro x hx
    obtain ⟨hso, hre⟩ := h.live x hx
    refine ⟨?_, hre⟩
    rw [flags, hk x (hpl x hx)]
    exact hso
  · intro x hx
    by_cases hnew : x = ⟨s.nextId⟩
    · rw [hnew]
      exact Nat.lt_succ_self _
    · rw [flags, hk x hnew] at hx
      exact Nat.lt_succ_of_lt (h.fresh x hx)
  · intro x p hx
    rw [flags, ht] at hx
    split at hx
    · cases hx
      exact fun hf => Bool.noConfusion hf
    · exact h.sober x p hx
  · exact fun x hx => h.parkedHeld x (hpa x hx).2
  · intro x hx
    obtain ⟨hne, hpx⟩ := hpa x hx
    simp only [update_of_ne hne]
    exact h.parkedBase x hpx
  · intro c x hx
    have hne : x ≠ ⟨s.nextId⟩ := hold x (h.fresh x (.inl
      (h.live_held (held_pos_of_parked_slot hx)).1))
    have hs : { s with table := table }.parked x = s.parked x := parked_congr (hk x hne)
    exact hs.trans (h.tagged c x hx)
  · intro c x hc hx
    have hne : x ≠ ⟨s.nextId⟩ := hold x (h.fresh x (.inl (h.live_current hx).1))
    simp only [update_of_ne hne]
    exact h.exiting c x hc hx
  · intro x hx
    simp only [update_of_ne (hold x (h.fresh x (.inr hx)))]
    exact h.dead x hx
  · intro c w hw
    rcases h.outgoing c w hw with hr | hr | ⟨hsl, hlt, hr⟩
    · exact .inl hr
    · exact .inr (.inl hr)
    · refine .inr (.inr ⟨hsl, Nat.lt_succ_of_lt hlt, hr.imp_right fun hr => ?_⟩)
      rw [flags, hk _ (hold _ hlt)]
      exact hr

end Exclusive

end Qunix.Sched
