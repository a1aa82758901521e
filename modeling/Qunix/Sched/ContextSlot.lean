/-
Where a saved context lands.

`schedule` takes the address of the outgoing thread's context slot under the
scheduler lock and `context::switch` stores through it after the lock is
released. The thread table is a B-tree, so an insertion or a removal on another
CPU may have moved the entry by then: `stale_slot_store`. As long as no such
section moves the entry of a thread that a CPU is switching away from, every
store lands in its own thread's entry and every resumption uses the last context
saved: `context_saved_in_place`.
-/

import Qunix.Sched.InFlight

namespace Qunix.Sched

open Function Qunix.Lib

variable {n : Nat}

namespace St

def addrOf (s : St n) (x : ThreadId) : Option Nat := (s.table x).map Thread.addr

def contextOf (s : St n) (x : ThreadId) : Option (Option Nat) := (s.table x).map Thread.context

/-- Every thread that a CPU is switching away from stays where `schedule` found
it. -/
def keepsSlots (s : St n) (place : ThreadId → Nat) (removed : List ThreadId) : Bool :=
  (List.finRange n).all fun c =>
    match (s.phase c).window with
    | some w => place w.outgoing == w.slot && !removed.contains w.outgoing
    | none => true

/-- The condition on the three sections that insert or remove. -/
def steady (s : St n) : Act n → Bool
  | .spawn _ place _ _ _ => s.keepsSlots place []
  | .initLock _ place => s.keepsSlots place []
  | .reap _ place => s.corpses.isEmpty || s.keepsSlots place s.gone
  | _ => true

variable {s : St n}

theorem keepsSlots_spec {place : ThreadId → Nat} {removed : List ThreadId}
    (h : s.keepsSlots place removed = true) {c : Fin n} {w : Window}
    (hw : (s.phase c).window = some w) : place w.outgoing = w.slot ∧ w.outgoing ∉ removed := by
  have hc := List.all_eq_true.mp h c (List.mem_finRange c)
  rw [hw] at hc
  simpa using hc

theorem apart_of_separate (hsep : Separate s.table s.nextId)
    (hf : ∀ x, (s.table x).isSome → x.val < s.nextId) {x y : ThreadId} {a : Nat}
    (hx : s.addrOf x = some a) (hy : s.addrOf y = some a) : x = y := by
  have hs : ∀ z, s.addrOf z = some a → (s.table z).isSome := fun z hz => by
    exact Option.isSome_map ▸ Option.isSome_of_eq_some hz
  have hval := hsep x.val (hf x (hs x hx)) y.val (hf y (hs y hy)) (hs x hx)
    (hs y hy) (hx.trans hy.symm)
  exact congrArg ThreadId.mk hval

end St

open St in
structure Saved (s : St n) : Prop where
  apart : ∀ x y a, s.addrOf x = some a → s.addrOf y = some a → x = y
  slot : ∀ c w, (s.phase c).window = some w → s.addrOf w.outgoing = some w.slot
  context : ∀ x v, s.contextOf x = some v → v = s.rsp x
  resume : ∀ c w, (s.phase c).window = some w → s.rsp w.incoming = some w.ctx

namespace Saved

open St

variable {s t : St n} {c : Fin n} {x me id : ThreadId}

theorem boot : Saved (St.boot n) := by
  constructor
  · intro x y a hx
    cases hx
  · intro c w hw
    cases hw
  · intro x v hx
    cases hx
  · intro c w hw
    cases hw

theorem keep (h : Saved s) (ha : ∀ x, t.addrOf x = s.addrOf x)
    (hctx : ∀ x, t.contextOf x = s.contextOf x) (hrsp : t.rsp = s.rsp)
    (hwin : ∀ c, (t.phase c).window = (s.phase c).window) : Saved t := by
  refine ⟨fun x y a hx hy => ?_, fun c w hw => ?_, fun x v hx => ?_, fun c w hw => ?_⟩
  · exact h.apart x y a ((ha x).symm.trans hx) ((ha y).symm.trans hy)
  · rw [ha]
    exact h.slot c w ((hwin c).symm.trans hw)
  · rw [hrsp]
    exact h.context x v ((hctx x).symm.trans hx)
  · rw [hrsp]
    exact h.resume c w ((hwin c).symm.trans hw)

theorem calm (h : Saved s) (hq : Calm s t) : Saved t := h.keep hq.addr hq.context hq.rsp hq.window

/-- An entry of the table is changed in place, away from address and context. -/
theorem modify (h : Saved s) (id : ThreadId) {f : Thread n → Thread n}
    (ht : t.table = (s.modify id f).table) (hrsp : t.rsp = s.rsp) (hp : t.phase = s.phase)
    (ha : ∀ e, (f e).addr = e.addr) (hctx : ∀ e, (f e).context = e.context) : Saved t := by
  refine h.keep (fun x => ?_) (fun x => ?_) hrsp fun c => by rw [hp]
  · rw [addrOf, ht]
    exact map_modify Thread.addr ha
  · rw [contextOf, ht]
    exact map_modify Thread.context hctx

/-- The decision copies the slot of the outgoing and the context of the incoming
thread. -/
theorem decide (h : Saved s) (ht : s.decide c = some t) : Saved t := by
  cases decide_moves ht with
  | @decide _ out irq next me e ctx old _ _ hn hctx hold =>
    have ha : ∀ x, (((s.handOn c me out).modify next fun e => { e with state := .running }).addrOf
        x) = s.addrOf x := fun x => map_decided Thread.addr fun _ _ => rfl
    have hc : ∀ x, (((s.handOn c me out).modify next fun e =>
        { e with state := .running }).contextOf x) = s.contextOf x := fun x =>
      map_decided Thread.context fun _ _ => rfl
    have hsl : s.addrOf me = some old.addr := by
      rw [← ha, addrOf, hold]
      rfl
    have hr : s.rsp next = some ctx := by
      have hs : (((s.handOn c me out).modify next fun e => { e with state := .running }).contextOf
          next) = ((s.handOn c me out).table next).map Thread.context := map_modify _ fun _ => rfl
      rw [hc, hn, Option.map_some, hctx] at hs
      exact (h.context next _ hs).symm
    constructor
    · exact fun x y a hx hy => h.apart x y a ((ha x).symm.trans hx) ((ha y).symm.trans hy)
    · refine (forall_update_iff s.phase fun _ q => ∀ w, q.window = some w →
        St.addrOf _ w.outgoing = some w.slot).mpr ⟨?_, fun d _ w hw => (ha _).trans (h.slot d w hw)⟩
      rintro w ⟨⟩
      exact (ha _).trans hsl
    · exact fun x v hx => h.context x v ((hc x).symm.trans hx)
    · refine (forall_update_iff s.phase fun _ q => ∀ w, q.window = some w →
        s.rsp w.incoming = some w.ctx).mpr ⟨?_, fun d _ => h.resume d⟩
      rintro w ⟨⟩
      exact hr

/-- The store changes the context of the outgoing thread's entry only. -/
theorem storeContext_eq (h : Saved s) {w : Window} (value : Nat)
    (hw : (s.phase c).window = some w) :
    ∃ e, s.table w.outgoing = some e ∧ storeContext s.table w.slot value =
      update s.table w.outgoing (some { e with context := some value }) := by
  have hs := h.slot c w hw
  obtain ⟨e, he, ha⟩ := Option.map_eq_some_iff.mp hs
  refine ⟨e, he, funext fun x => ?_⟩
  rcases eq_or_ne x w.outgoing with rfl | hx
  · rw [update_self, storeContext, he, Option.map_some, if_pos ha]
  · rw [update_of_ne hx, storeContext]
    cases hx' : s.table x with
    | none => rfl
    | some e' =>
      have hne : e'.addr ≠ w.slot := fun heq =>
        hx (h.apart x w.outgoing w.slot (by rw [addrOf, hx', Option.map_some, heq]) hs)
      rw [Option.map_some, if_neg hne]

theorem switch (hex : Exclusive s) (hfl : InFlight s) (h : Saved s) (ht : s.switch c = some t) :
    Saved t := by
  cases step_moves (a := .switch c) ht
  rename_i w hp
  have hwin : (s.phase c).window = some w := by rw [hp]; rfl
  obtain ⟨e, he, hs⟩ := h.storeContext_eq s.stamp hwin
  have ha : ∀ x, (storeContext s.table w.slot s.stamp x).map Thread.addr = s.addrOf x := fun x =>
    map_storeContext Thread.addr fun _ _ => rfl
  have ho : ∀ d w', (update s.phase c .landed d).window = some w' →
      (s.phase d).window = some w' :=
    (forall_update_iff s.phase fun d q =>
      ∀ w', q.window = some w' → (s.phase d).window = some w').mpr
      ⟨nofun, fun _ _ _ hw' => hw'⟩
  refine ⟨fun x y a hx hy => ?_, fun d w' hw' => ?_, fun x v hx => ?_, fun d w' hw' => ?_⟩
  · exact h.apart x y a ((ha x).symm.trans hx) ((ha y).symm.trans hy)
  · exact (ha _).trans (h.slot d w' (ho d w' hw'))
  · simp only [contextOf, setPhase, hs] at hx ⊢
    rcases eq_or_ne x w.outgoing with rfl | hxw
    · rw [update_self] at hx
      rw [update_self]
      exact (Option.some.inj hx).symm
    · rw [update_of_ne hxw] at hx
      rw [update_of_ne hxw]
      exact h.context x v hx
  · have hw := ho d w' hw'
    -- The other CPU's incoming thread is not the one being saved here.
    have hne : w'.incoming ≠ w.outgoing := fun heq =>
      (hex.outgoing_nowhere hwin d).1 (heq ▸ hfl.incoming d w' hw)
    simp only [setPhase, update_of_ne hne]
    exact h.resume d w' hw

variable {place : ThreadId → Nat}

/-- A section that inserts or removes leaves entries where `place` says. -/
theorem relocated (h : Saved s) (hfl : InFlight s) (hex' : Exclusive t)
    {table : ThreadId → Option (Thread n)} {removed : List ThreadId}
    (ht : t.table = relocate place table) (hsep : Separate t.table t.nextId)
    (hs : s.keepsSlots place removed = true)
    (hke : ∀ x, (s.table x).isSome → x ∉ removed → (table x).isSome)
    (hctx : ∀ x v, (table x).map Thread.context = some v → v = t.rsp x)
    (hrsp : ∀ c x, s.current c = some x → t.rsp x = s.rsp x)
    (hwin : ∀ c, (t.phase c).window = (s.phase c).window) : Saved t := by
  refine ⟨fun x y a => apart_of_separate hsep fun z hz => ?_, fun c w hw => ?_, fun x v hx => ?_,
    fun c w hw => ?_⟩
  · refine hex'.fresh z (.inl ?_)
    rw [flags, Option.isSome_map]
    exact hz
  · have hw := (hwin c).symm.trans hw
    obtain ⟨hp, hk⟩ := keepsSlots_spec hs hw
    have hso : (s.table w.outgoing).isSome := by
      have := h.slot c w hw
      exact Option.isSome_map ▸ Option.isSome_of_eq_some this
    obtain ⟨e, he⟩ := Option.isSome_iff_exists.mp (hke _ hso hk)
    rw [addrOf, ht, relocate, he, ← hp]
    rfl
  · refine hctx x v ?_
    rw [contextOf, ht, map_relocate Thread.context fun _ _ => rfl] at hx
    exact hx
  · have hw := (hwin c).symm.trans hw
    rw [hrsp c w.incoming (hfl.incoming c w hw)]
    exact h.resume c w hw

theorem reap (hfl : InFlight s) (hex' : Exclusive t) (h : Saved s) (ht : s.reap c place = some t)
    (hs : s.steady (.reap c place) = true) : Saved t := by
  cases reap_moves ht with
  | reapNone => exact h.keep (fun _ => rfl) (fun _ => rfl) rfl fun _ => rfl
  | reap _ _ _ hc hsep =>
    have hsl : s.keepsSlots place s.gone = true := by
      simpa [steady, hc] using hs
    refine h.relocated hfl hex' rfl hsep hsl (fun x hx hk => ?_) (fun x v hx => ?_)
      (fun _ _ _ => rfl) fun _ => rfl
    · rwa [if_neg hk]
    · split at hx
      · cases hx
      · exact h.context x v hx

/-- Inserting the entry of a new thread, with the context it is to start from. -/
theorem insert (hex : Exclusive s) (hfl : InFlight s) (hex' : Exclusive t) (h : Saved s)
    {e : Thread n} (ht : t.table = relocate place (update s.table ⟨s.nextId⟩ (some e)))
    (hsep : Separate t.table t.nextId) (hs : s.keepsSlots place [] = true)
    (hrsp : t.rsp = update s.rsp ⟨s.nextId⟩ e.context)
    (hwin : ∀ c, (t.phase c).window = (s.phase c).window) : Saved t := by
  refine h.relocated hfl hex' ht hsep hs (fun x hx _ => ?_) (fun x v hx => ?_)
    (fun c x hx => ?_) hwin
  · by_cases hnew : x = ⟨s.nextId⟩
    · rw [hnew, update_self]
      rfl
    · rwa [update_of_ne hnew]
  · rw [hrsp]
    rcases eq_or_ne x ⟨s.nextId⟩ with rfl | hnew
    · rw [update_self] at hx ⊢
      exact (Option.some.inj hx).symm
    · rw [update_of_ne hnew] at hx ⊢
      exact h.context x v hx
  · rw [hrsp, update_of_ne (hex.current_ne_nextId hx)]

theorem step {a : Act n} (hex : Exclusive s) (hfl : InFlight s) (h : Saved s)
    (ht : s.step a = some t) (hs : s.steady a = true) : Saved t := by
  have hex' : Exclusive t := hex.step ht
  cases step_moves ht with
  | run | parkCheck | exitCheck => exact h.keep (fun _ => rfl) (fun _ => rfl) rfl fun _ => rfl
  | enter hp | activateRoot hp | initSet hp =>
    exact h.keep (fun _ => rfl) (fun _ => rfl) rfl (window_update (s := s) (by rw [hp]; rfl))
  | parkCancelled | parked | adopt => exact h.modify _ rfl rfl rfl (fun _ => rfl) fun _ => rfl
  | reapNone | reap => exact h.reap hfl hex' ht hs
  | decide => exact h.decide ht
  | switch => exact h.switch hex hfl ht
  | spawn _ _ _ _ _ hsep hta =>
    exact h.insert hex hfl hex' hta hsep hs rfl fun _ => rfl
  | initLock hp hsep hta =>
    exact h.insert hex hfl hex' hta hsep hs rfl (window_update (by rw [hp]; rfl))
  | _ => exact h.calm (step_calm rfl ht)

end Saved

end Qunix.Sched
