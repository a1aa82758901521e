/-
Draining the used ring.

The handler finds the entry for position `j` of the used ring in slot `j % 64`, by
reducing a count that wraps at 16 bits. As every unread entry names a different
chain in flight, at most 64 of them are unread: none was overwritten (`Shows`), and
the distance of the two indices is their number. So a run of the handler consumes
the entries it was told of in the order of their positions (`Machine.Inv`).

Each of them ends in the slot of its own head (`Entry.settle`). The slot of a call
that waits is marked done and its thread is unparked; a call that timed out or was
dropped has left its chain behind, which is freed, and nobody is unparked.
-/

import Qunix.Block.Device
import Qunix.Block.Exclusive

namespace Qunix.Block

open Function Qunix.Virtio Qunix.Lib
open Qunix.BufferCache (Bytes BlkStatus BlockError)

/-! ### What an entry does to a slot -/

/-- The slot of the head after the completion. -/
def Entry.settle (e : Entry) : Option Slot → Option Slot
  | none => none
  | some sl =>
    if sl.abandoned then none
    else some { sl with done := true, status := e.status, len := e.len }

variable {sl : Slot} {es : List Entry} {slots : Nat → Option Slot}

theorem Entry.settle_waiting (e : Entry) (h : sl.abandoned = false) :
    e.settle (some sl) = some { sl with done := true, status := e.status, len := e.len } := by
  simp [settle, h]

theorem Entry.settle_abandoned (e : Entry) (h : sl.abandoned = true) :
    e.settle (some sl) = none :=
  if_pos h

theorem Entry.settle_eq_some (e : Entry) {o : Option Slot} {sl' : Slot}
    (h : e.settle o = some sl') : sl'.status = e.status ∧ sl'.len = e.len := by
  cases o with
  | none => cases h
  | some sl =>
    obtain ⟨-, heq⟩ := Option.ite_none_left_eq_some.mp h
    cases heq
    exact ⟨rfl, rfl⟩

/-- The thread the completion unparks. -/
def Entry.wakes (slots : Nat → Option Slot) (thread : Nat → Nat) (e : Entry) : Option Nat :=
  match slots e.head with
  | none => none
  | some sl => if sl.abandoned then none else some (thread e.head)

def settleAll (slots : Nat → Option Slot) : List Entry → Nat → Option Slot
  | [] => slots
  | e :: es => settleAll (update slots e.head (e.settle (slots e.head))) es

theorem settleAll_of_not_mem {h : Nat} (hh : h ∉ es.map Entry.head) :
    settleAll slots es h = slots h := by
  induction es generalizing slots with
  | nil => rfl
  | cons e es ih =>
    rw [List.map_cons, List.mem_cons, not_or] at hh
    rw [settleAll, ih hh.2, update_of_ne hh.1]

theorem settleAll_of_mem {e : Entry} (hn : (es.map Entry.head).Nodup) (he : e ∈ es) :
    settleAll slots es e.head = e.settle (slots e.head) := by
  induction es generalizing slots with
  | nil => cases he
  | cons d es ih =>
    rw [List.map_cons, List.nodup_cons] at hn
    rw [settleAll]
    rcases List.mem_cons.mp he with rfl | he
    · rw [settleAll_of_not_mem hn.1, update_self]
    · have hne : e.head ≠ d.head := by
        intro heq
        exact hn.1 (heq ▸ List.mem_map_of_mem he)
      rw [ih hn.2 he, update_of_ne hne]

/-! ### The loop of the handler -/

namespace Owned

variable {blk : Blk} {free : List Nat} {chains : List (List Nat)} {d : DeviceInput}
  {k : Nat}

/-- One turn of the loop, over an entry that names a chain in flight. -/
theorem drain_entry (o : Owned blk free chains) (thread : Nat → Nat) {e : Entry}
    (he : UsedElem.ofBytes (d.entries k) = e.elem) (hst : d.status k = e.status)
    (hf : blk.queue.inFlight e.head = true) :
    ∃ blk' free' chains', Owned blk' free' chains' ∧
      blk'.slots = update blk.slots e.head (e.settle (blk.slots e.head)) ∧
      blk'.queue.inFlight = update blk.queue.inFlight e.head false ∧
      blk'.lastUsed = (blk.lastUsed + 1) % 2 ^ 16 ∧ blk'.bounce = blk.bounce ∧
      (∀ n, Blk.drain d (n + 1) k blk = (do
        let (rest, b) ← Blk.drain d n (k + 1) blk'
        pure (e.head :: rest, b))) ∧
      ∀ n, Blk.woken thread d (n + 1) k blk =
        (e.wakes blk.slots thread).toList ++ Blk.woken thread d n (k + 1) blk' := by
  have hs : blk.lastUsed % queueSize < blk.queue.size := by
    rw [o.size]
    exact Nat.mod_lt _ (by decide)
  have hi : blk.queue.ingestUsedSlot (blk.lastUsed % queueSize) (d.entries k) =
      (true, (blk.ingest d k).queue) := if_pos hs
  have hr : (blk.ingest d k).queue.usedRing
      (blk.lastUsed % queueSize % (blk.ingest d k).queue.size) = ⟨e.head, e.len⟩ := by
    rw [show (blk.ingest d k).queue.size = blk.queue.size from rfl, Nat.mod_eq_of_lt hs]
    exact (update_self ..).trans he
  have hn : (blk.ingest d k).noted thread (blk.lastUsed % queueSize) =
      e.wakes blk.slots thread := by
    unfold Blk.noted
    rw [(o.ingest d k).takeUsed_of_flight hr hf]
    rfl
  have hd : ∀ {b : Blk} (n : Nat),
      (blk.ingest d k).take (blk.lastUsed % queueSize) (d.status k) = .ok (some e.head, b) →
      Blk.drain d (n + 1) k blk = (do
        let (rest, b') ← Blk.drain d n (k + 1) { b with lastUsed := (b.lastUsed + 1) % 2 ^ 16 }
        pure (e.head :: rest, b')) := by
    intro b n ht
    simp only [Blk.drain, hi]
    exact bind_of_eq_ok ht
  have hw : ∀ {b : Blk} (n : Nat),
      (blk.ingest d k).take (blk.lastUsed % queueSize) (d.status k) = .ok (some e.head, b) →
      Blk.woken thread d (n + 1) k blk = (e.wakes blk.slots thread).toList ++
        Blk.woken thread d n (k + 1) { b with lastUsed := (b.lastUsed + 1) % 2 ^ 16 } := by
    intro b n ht
    simp only [Blk.ingest] at hi ht hn
    simp only [Blk.woken, hi, ht, hn]
  obtain ⟨sl, hsl, hc⟩ := (o.ingest d k).take_of_flight (d.status k) hr hf
  have hsl : blk.slots e.head = some sl := hsl
  rcases hc with ⟨ha, ht, o'⟩ | ⟨ha, q, c, chains', ht, hq, -, o'⟩
  · refine ⟨_, _, _, o'.clocked, ?_, rfl, rfl, rfl, fun n => hd n ht,
      fun n => hw n ht⟩
    rw [hsl, e.settle_waiting ha, ← hst]
    rfl
  · refine ⟨_, _, _, o'.clocked, ?_, hq, rfl, rfl, fun n => hd n ht,
      fun n => hw n ht⟩
    rw [hsl, e.settle_abandoned ha]
    rfl

/-- The whole loop, over entries that name different chains in flight. -/
theorem drain_entries {es : List Entry} (o : Owned blk free chains) (thread : Nat → Nat)
    (hr : ∀ i e, es[i]? = some e →
      UsedElem.ofBytes (d.entries (k + i)) = e.elem ∧ d.status (k + i) = e.status)
    (hf : ∀ e ∈ es, blk.queue.inFlight e.head = true)
    (hn : (es.map Entry.head).Nodup) (hl : blk.lastUsed < 2 ^ 16) :
    ∃ blk' free' chains', Owned blk' free' chains' ∧
      Blk.drain d es.length k blk = .ok (es.map Entry.head, blk') ∧
      blk'.slots = settleAll blk.slots es ∧
      (∀ h, h ∉ es.map Entry.head → blk'.queue.inFlight h = blk.queue.inFlight h) ∧
      blk'.lastUsed = (blk.lastUsed + es.length) % 2 ^ 16 ∧ blk'.bounce = blk.bounce ∧
      Blk.woken thread d es.length k blk = es.filterMap (Entry.wakes blk.slots thread) := by
  induction es generalizing k blk free chains with
  | nil =>
    refine ⟨blk, free, chains, o, rfl, rfl, fun _ _ => rfl, ?_, rfl, rfl⟩
    rw [List.length_nil, Nat.add_zero, Nat.mod_eq_of_lt hl]
  | cons e es ih =>
    rw [List.map_cons, List.nodup_cons] at hn
    obtain ⟨he, hs⟩ := hr 0 e rfl
    obtain ⟨blk₁, free₁, chains₁, o₁, hslots₁, hflight₁, hlast₁, hbounce₁, hdrain₁, hwoken₁⟩ :=
      o.drain_entry (k := k) thread he hs (hf e List.mem_cons_self)
    have hne : ∀ e' ∈ es, e'.head ≠ e.head := by
      intro e' he' heq
      exact hn.1 (heq ▸ List.mem_map_of_mem he')
    obtain ⟨blk', free', chains', o', hd, hsl, hk, hl', hb, hw⟩ :=
      ih o₁ (fun i e' he' => by
          rw [Nat.add_assoc, Nat.add_comm 1 i]
          exact hr (i + 1) e' he')
        (fun e' he' => by
          rw [hflight₁, update_of_ne (hne e' he')]
          exact hf e' (List.mem_cons_of_mem _ he'))
        hn.2 (hlast₁ ▸ Nat.mod_lt _ (by decide))
    refine ⟨blk', free', chains', o', ?_, ?_, fun h hh => ?_, ?_, hb.trans hbounce₁, ?_⟩
    · rw [List.length_cons, hdrain₁, bind_of_eq_ok hd]
      rfl
    · rw [hsl, hslots₁, settleAll]
    · rw [List.map_cons, List.mem_cons, not_or] at hh
      rw [hk h hh.2, hflight₁, update_of_ne hh.1]
    · rw [hl', hlast₁, List.length_cons, Nat.mod_add_mod]
      omega
    · have hwa : es.filterMap (Entry.wakes blk₁.slots thread) =
          es.filterMap (Entry.wakes blk.slots thread) := by
        refine List.filterMap_congr fun e' he' => ?_
        rw [Entry.wakes, Entry.wakes, hslots₁, update_of_ne (hne e' he')]
      rw [List.length_cons, hwoken₁, hw, hwa, List.filterMap_cons]
      cases e.wakes blk.slots thread with
      | none | some t => rfl

end Owned

/-! ### What the calls leave alone -/

section Calls

variable {s s' : Sys} {a : Act} {free : List Nat} {chains chains' : List (List Nat)} {t h : Nat}

theorem published_eq_some (hp : s.published a s' = some (t, h)) :
    ∃ r deadline r' deadline', a = .advance t ∧ s.calls t = .submit r deadline ∧
      s'.calls t = .poll r' h deadline' := by
  unfold Sys.published at hp
  split at hp
  · split at hp
    · rename_i hs hpo
      cases hp
      exact ⟨_, _, _, _, rfl, hs, hpo⟩
    · cases hp
  · cases hp

/-- A request is published in a slot that was free, and is not done. -/
theorem Change.slot_of_published (c : Change s chains a s' chains')
    (hp : s.published a s' = some (t, h)) :
    s.blk.slots h = none ∧ ∃ sl, s'.blk.slots h = some sl ∧ sl.done = false := by
  obtain ⟨r, deadline, r', deadline', rfl, hs, hpo⟩ := published_eq_some hp
  cases c with
  | refused => simp [Sys.setCall] at hpo
  | submitted _ hf =>
    simp only [Sys.setCall, update_self] at hpo
    obtain ⟨-, rfl, -⟩ := hpo
    exact ⟨hf, _, update_self .., rfl⟩
  | waited hc | polled hc | expired hc | finished hc | timedOut hc => simp [hs] at hc

/-- A chain in flight stays so. -/
theorem Change.keeps_flight (i : Inv s free chains) (c : Change s chains a s' chains')
    (hs : a.software = true) (hf : s.blk.queue.inFlight h = true) :
    s'.blk.queue.inFlight h = true := by
  obtain ⟨sl, hsl⟩ := i.owned.live h hf
  have hu : sl.done = false := by
    simpa [hf] using i.owned.flight h sl hsl
  have hk : ∀ {h' : Nat} {sl' : Slot}, s.blk.slots h' = some sl' → sl'.done = true →
      update s.blk.queue.inFlight h' false h = true := by
    intro h' sl' hsl' hd
    refine (update_of_ne (fun heq => ?_) ..).trans hf
    rw [heq, hsl', Option.some.injEq] at hsl
    rw [hsl, hu] at hd
    cases hd
  cases c with
  | submitted _ hfr _ hq =>
    refine (congrFun hq h).trans ((update_of_ne (fun heq => ?_) ..).trans hf)
    rw [heq, hfr] at hsl
    cases hsl
  | finished _ _ hsl' hd hq | droppedDone _ hsl' hd hq => exact (congrFun hq h).trans (hk hsl' hd)
  | handled | dma => cases hs
  | _ => exact hf

section

variable (c : Change s chains a s' chains')

include c

theorem Change.lastUsed_eq (hs : a.software = true) :
    s'.blk.lastUsed = s.blk.lastUsed := by
  cases c with
  | handled => cases hs
  | _ => rfl

theorem Change.bounce_eq (hs : a.software = true)
    {sl : Slot} (hsl : s.blk.slots h = some sl) : s'.blk.bounce h = s.blk.bounce h := by
  cases c with
  | @submitted _ _ h' _ _ _ _ hf =>
    refine update_of_ne (fun heq => ?_) ..
    rw [heq, hf] at hsl
    cases hsl
  | dma | handled => cases hs
  | _ => rfl

/-- A slot that is done was done before, with the same verdict. -/
theorem Change.done_before
    (hs : a.software = true) {sl' : Slot} (hsl' : s'.blk.slots h = some sl')
    (hd' : sl'.done = true) :
    ∃ sl, s.blk.slots h = some sl ∧ sl.done = true ∧ sl.status = sl'.status ∧ sl.len = sl'.len ∧
      s'.blk.bounce h = s.blk.bounce h := by
  rcases c.slot_cases hsl' with ⟨-, hu⟩ | ⟨sl, hsl, hd, hst, hlen⟩ | ⟨⟨d, rfl⟩, -⟩
  · rw [hd'] at hu
    cases hu
  · exact ⟨sl, hsl, hd ▸ hd', hst.symm, hlen.symm, c.bounce_eq hs hsl⟩
  · cases hs

end

end Calls

/-! ### The invariant -/

/-- Chains in flight are told apart by heads below the queue's size. -/
theorem Owned.length_le_queueSize {blk : Blk} {free : List Nat} {chains : List (List Nat)}
    (o : Owned blk free chains) (hf : ∀ e ∈ es, blk.queue.inFlight e.head = true)
    (hn : (es.map Entry.head).Nodup) : es.length ≤ queueSize := by
  have hsub : es.map Entry.head ⊆ List.range queueSize := by
    intro h hh
    obtain ⟨e, he, rfl⟩ := List.mem_map.mp hh
    obtain ⟨sl, hsl⟩ := o.live e.head (hf e he)
    exact List.mem_range.mpr (o.lt_of_slot hsl)
  simpa using (List.subperm_of_subset hn hsub).length_le

namespace Machine

/-- The ring shows the unread entries, which name different chains in flight, and the
two indices count what was appended and what was consumed. Every verdict in a slot
is the device's for that request. -/
structure Inv (m : Machine) : Prop where
  driver : ∃ free chains, Block.Inv m.sys free chains
  running : m.sys.panicked = none
  consumed : m.consumed ≤ m.appended.length
  usedIdx : m.usedIdx = m.appended.length % 2 ^ 16
  lastUsed : m.sys.blk.lastUsed = m.consumed % 2 ^ 16
  ring : Shows queueSize (fun slot => UsedElem.ofBytes (m.used slot)) (m.appended.map Entry.elem)
    m.consumed
  flight : ∀ e ∈ m.unread, m.sys.blk.queue.inFlight e.head = true
  distinct : (m.unread.map Entry.head).Nodup
  status : ∀ e ∈ m.unread, m.status e.head = e.status
  served : ∀ e ∈ m.unread, m.served e.head = some e ∧
    (m.sys.blk.bounce e.head).take e.bytes.length = e.bytes
  done : ∀ h sl, m.sys.blk.slots h = some sl → sl.done = true → ∃ e, m.served h = some e ∧
    sl.status = e.status ∧ sl.len = e.len ∧ (m.sys.blk.bounce h).take e.bytes.length = e.bytes
  taken : m.taken = (m.appended.take m.consumed).map Entry.head

variable {m m' : Machine}

theorem Inv.boot (metaPhys dataPhys : Nat) (bounce : Nat → Bytes) (used : Nat → Fin 8 → UInt8)
    (status : Nat → UInt8) : Inv (.boot metaPhys dataPhys bounce used status) where
  driver := ⟨_, _, .boot metaPhys dataPhys bounce⟩
  running := rfl
  consumed := Nat.le_refl 0
  usedIdx := rfl
  lastUsed := rfl
  ring := .nil
  flight := nofun
  distinct := List.nodup_nil
  status := nofun
  served := nofun
  done := nofun
  taken := rfl

theorem length_unread (m : Machine) : m.unread.length = m.appended.length - m.consumed :=
  List.length_drop

/-! ### The steps -/

theorem Inv.driver_step (i : Inv m) {a : Act} (hso : a.software = true)
    (h : m.driver a = some m') : Inv m' := by
  obtain ⟨sys, hstep, rfl⟩ := Option.map_eq_some_iff.mp h
  obtain ⟨free, chains, i₀⟩ := i.driver
  obtain ⟨free', chains', c, i₁⟩ := i₀.step hstep
  have hr : sys.panicked = none := c.panicked_eq.trans i.running
  have hl := (c.lastUsed_eq hso).trans i.lastUsed
  have hf : ∀ e ∈ m.unread, sys.blk.queue.inFlight e.head = true :=
    fun e he => c.keeps_flight i₀ hso (i.flight e he)
  have hse : ∀ e ∈ m.unread, m.served e.head = some e ∧
      (sys.blk.bounce e.head).take e.bytes.length = e.bytes := by
    intro e he
    obtain ⟨sl, hsl⟩ := i₀.owned.live e.head (i.flight e he)
    rw [c.bounce_eq hso hsl]
    exact i.served e he
  have hdo : ∀ h sl, sys.blk.slots h = some sl → sl.done = true → ∃ e, m.served h = some e ∧
      sl.status = e.status ∧ sl.len = e.len ∧
        (sys.blk.bounce h).take e.bytes.length = e.bytes := by
    intro h sl' hsl' hd'
    obtain ⟨sl, hsl, hdo, hst, hlen, hbo⟩ := c.done_before hso hsl' hd'
    rw [← hst, ← hlen, hbo]
    exact i.done h sl hsl hdo
  cases hp : m.sys.published a sys with
  | none =>
    exact ⟨⟨free', chains', i₁⟩, hr, i.consumed, i.usedIdx, hl, i.ring, hf,
      i.distinct, i.status, hse, hdo, i.taken⟩
  | some p =>
    obtain ⟨t, head⟩ := p
    obtain ⟨hfr, sl', hsl', hu⟩ := c.slot_of_published hp
    have hne : ∀ e ∈ m.unread, e.head ≠ head := by
      intro e he heq
      obtain ⟨sl, hsl⟩ := i₀.owned.live e.head (i.flight e he)
      rw [heq, hfr] at hsl
      cases hsl
    refine ⟨⟨free', chains', i₁⟩, hr, i.consumed, i.usedIdx, hl, i.ring, hf,
      i.distinct, fun e he => ?_, fun e he => ?_, fun h sl hsl hd => ?_, i.taken⟩
    · exact (update_of_ne (hne e he) ..).trans (i.status e he)
    · obtain ⟨hs, hb⟩ := hse e he
      exact ⟨(update_of_ne (hne e he) ..).trans hs, hb⟩
    · have hh : h ≠ head := by
        rintro rfl
        rw [show sys.blk.slots h = some sl' from hsl', Option.some.injEq] at hsl
        rw [← hsl, hu] at hd
        cases hd
      obtain ⟨e, hs, hre⟩ := hdo h sl hsl hd
      exact ⟨e, (update_of_ne hh ..).trans hs, hre⟩

variable {e : Entry} {late : Nat}

theorem unread_answer (hle : m.consumed ≤ m.appended.length) :
    (m.answer e).unread = m.unread ++ [e] :=
  List.drop_append_of_le_length hle

theorem Inv.complete_step (i : Inv m) (h : m.complete e = some m') : Inv m' := by
  obtain ⟨⟨hf, hnew, hlen⟩, heq⟩ := Option.ite_none_right_eq_some.mp h
  cases heq
  obtain ⟨free, chains, i₀⟩ := i.driver
  obtain ⟨sl, hsl⟩ := i₀.owned.live e.head hf
  have hun : sl.done = false := by
    simpa [hf] using i₀.owned.flight e.head sl hsl
  have hu := unread_answer (e := e) i.consumed
  have hmem : ∀ e', e' ∈ (m.answer e).unread → e' ∈ m.unread ∧ e'.head ≠ e.head ∨ e' = e := by
    intro e' he'
    rw [hu] at he'
    rcases List.mem_append.mp he' with he' | he'
    · exact .inl ⟨he', fun heq => hnew (heq ▸ List.mem_map_of_mem he')⟩
    · exact .inr (List.mem_singleton.mp he')
  have hfl : ∀ e' ∈ (m.answer e).unread, m.sys.blk.queue.inFlight e'.head = true := by
    intro e' he'
    rcases hmem e' he' with ⟨he', -⟩ | rfl
    · exact i.flight e' he'
    · exact hf
  have hd : ((m.answer e).unread.map Entry.head).Nodup := by
    rw [hu, List.map_append, List.map_singleton, ← List.concat_eq_append, List.nodup_concat]
    exact ⟨hnew, i.distinct⟩
  -- There is room: the unread entries, this one included, name different heads.
  have hr : (m.appended.map Entry.elem).length < m.consumed + queueSize := by
    have hle := i₀.owned.length_le_queueSize hfl hd
    rw [hu, List.length_append, List.length_singleton, m.length_unread] at hle
    rw [List.length_map]
    omega
  have hri : (fun slot => UsedElem.ofBytes ((m.answer e).used slot)) =
      update (fun slot => UsedElem.ofBytes (m.used slot))
        ((m.appended.map Entry.elem).length % queueSize) e.elem := by
    have hh : e.head < 2 ^ 32 := (i₀.owned.lt_of_slot hsl).trans (by decide)
    have hs : m.usedIdx % queueSize = (m.appended.map Entry.elem).length % queueSize := by
      rw [i.usedIdx, List.length_map]
      exact Nat.mod_mod_of_dvd _ (by decide)
    rw [← hs]
    refine (comp_update UsedElem.ofBytes m.used _ _).trans ?_
    rw [UsedElem.ofBytes_toBytes hh hlen]
    rfl
  refine ⟨⟨free, chains, ?_⟩, i.running, ?_, ?_, i.lastUsed, ?_, hfl, hd, ?_, ?_, ?_, ?_⟩
  · exact ⟨i₀.owned.of_done_eq i₀.owned.laid rfl rfl fun _ => rfl, i₀.held.of_slots_eq rfl⟩
  · change m.consumed ≤ (m.appended ++ [e]).length
    rw [List.length_append]
    exact i.consumed.trans (Nat.le_add_right ..)
  · change (m.usedIdx + 1) % 2 ^ 16 = (m.appended ++ [e]).length % 2 ^ 16
    rw [i.usedIdx, List.length_append, List.length_singleton, Nat.mod_add_mod]
  · rw [hri, show (m.answer e).appended.map Entry.elem = m.appended.map Entry.elem ++ [e.elem] from
      List.map_append]
    exact i.ring.push hr
  · intro e' he'
    rcases hmem e' he' with ⟨he', hne⟩ | rfl
    · exact (update_of_ne hne ..).trans (i.status e' he')
    · exact update_self ..
  · intro e' he'
    rcases hmem e' he' with ⟨he', hne⟩ | rfl
    · simp only [answer, update_of_ne hne]
      exact i.served e' he'
    · simp [answer]
  · intro h sl' hsl' hdo
    have hne : h ≠ e.head := by
      rintro rfl
      rw [show (m.answer e).sys.blk.slots e.head = some sl from hsl, Option.some.injEq] at hsl'
      rw [← hsl', hun] at hdo
      cases hdo
    simp only [answer, update_of_ne hne]
    exact i.done h sl' hsl' hdo
  · exact i.taken.trans (congrArg _ (List.take_append_of_le_length i.consumed).symm)

/-- The entries a run of the handler consumes. -/
def told (m : Machine) (late : Nat) : List Entry := m.unread.take (m.unread.length - late)

/-- What a run of the handler does. -/
structure Drained (m : Machine) (late : Nat) (m' : Machine) : Prop where
  appended : m'.appended = m.appended
  consumed : m'.consumed = m.consumed + (m.told late).length
  taken : m'.taken = m.taken ++ (m.told late).map Entry.head
  slots : m'.sys.blk.slots = settleAll m.sys.blk.slots (m.told late)
  unparked : m'.unparked =
    m.unparked ++ (m.told late).filterMap (Entry.wakes m.sys.blk.slots m.thread)

def drained (m : Machine) (late : Nat) (blk' : Blk) : Machine :=
  { m with
    sys := { m.sys with blk := blk' }
    consumed := m.consumed + (m.told late).length
    taken := m.taken ++ (m.told late).map Entry.head
    unparked := m.unparked ++ (m.told late).filterMap (Entry.wakes m.sys.blk.slots m.thread) }

theorem unread_drained (m : Machine) (late : Nat) (blk' : Blk) :
    (m.drained late blk').unread = m.unread.drop (m.unread.length - late) := by
  change m.appended.drop (m.consumed + (m.told late).length) = _
  rw [told, List.length_take, Nat.min_eq_left (Nat.sub_le ..), unread, List.drop_drop]

theorem length_told (hl : late ≤ m.unread.length) :
    (m.told late).length = m.appended.length - late - m.consumed := by
  rw [told, List.length_take, m.length_unread] at *
  omega

theorem Inv.input_told (i : Inv m) {j : Nat} (he : (m.told late)[j]? = some e) :
    UsedElem.ofBytes ((m.input late).entries j) = e.elem ∧ (m.input late).status j = e.status := by
  have hu : m.unread[j]? = some e := by
    rw [told, List.getElem?_take] at he
    exact (Option.ite_none_right_eq_some.mp he).2
  have ha : m.appended[m.consumed + j]? = some e := by
    rwa [unread, List.getElem?_drop] at hu
  have hs : (m.sys.blk.lastUsed + j) % 2 ^ 16 % queueSize = (m.consumed + j) % queueSize := by
    rw [i.lastUsed, Nat.mod_add_mod]
    exact Nat.mod_mod_of_dvd _ (by decide)
  have hel : UsedElem.ofBytes ((m.input late).entries j) = e.elem := by
    simp only [input, hs]
    exact i.ring _ (Nat.le_add_right ..) _ (by rw [List.getElem?_map, ha]; rfl)
  refine ⟨hel, ?_⟩
  change m.status (UsedElem.ofBytes ((m.input late).entries j)).id = e.status
  rw [hel]
  exact i.status e (List.mem_of_getElem? hu)

theorem Inv.pending_input (i : Inv m) (hl : late ≤ m.unread.length) :
    m.sys.blk.pending (m.input late) = (m.told late).length := by
  obtain ⟨free, chains, i₀⟩ := i.driver
  have hle := i₀.owned.length_le_queueSize i.flight i.distinct
  have hs : queueSize = 64 := rfl
  have hc := i.consumed
  have hidx : (m.input late).idx.toNat = (m.appended.length - late) % 2 ^ 16 := by
    simp only [input, UInt16.toNat_ofNat', i.usedIdx]
    rw [m.length_unread] at hle hl
    omega
  rw [Blk.pending, hidx, i.lastUsed, length_told hl]
  rw [m.length_unread] at hle hl
  exact wrapped_sub (by omega) (by omega)

theorem Inv.handle_eq (i : Inv m) (hlate : late ≤ m.unread.length) :
    ∃ m', m.handle late = some m' ∧ Drained m late m' ∧ Inv m' := by
  obtain ⟨free, chains, i₀⟩ := i.driver
  have hsub : ∀ e ∈ m.told late, e ∈ m.unread := fun e he => List.mem_of_mem_take he
  have hdistinct : ((m.told late).map Entry.head).Nodup := by
    rw [told, List.map_take]
    exact i.distinct.sublist (List.take_sublist _ _)
  have hflight : ∀ e ∈ m.told late, m.sys.blk.queue.inFlight e.head = true :=
    fun e he => i.flight e (hsub e he)
  have hlast : m.sys.blk.lastUsed < 2 ^ 16 := i.lastUsed ▸ Nat.mod_lt _ (by decide)
  obtain ⟨blk', free', chains', o', hdrain, hslots, hkept, hlast', hbounce, hwoken⟩ :=
    i₀.owned.drain_entries m.thread
      (fun j e he => by rw [Nat.zero_add]; exact i.input_told he) hflight hdistinct hlast
  have hpending := i.pending_input hlate
  have hroom : ¬ queueSize < (m.told late).length :=
    Nat.not_lt.mpr (i₀.owned.length_le_queueSize hflight hdistinct)
  have hhandle : m.sys.blk.handleCompletion (m.input late) =
      .ok ((m.told late).map Entry.head, blk') := by
    rw [Blk.handleCompletion, hpending, if_neg hroom, hdrain]
  have hstep : m.sys.step (.interrupt (m.input late)) = some { m.sys with blk := blk' } := by
    simp [Sys.step, i.running, hhandle]
  have hmoved : (blk'.lastUsed + 2 ^ 16 - m.sys.blk.lastUsed) % 2 ^ 16 = (m.told late).length := by
    have hsize : queueSize = 64 := rfl
    omega
  have htakes : m.sys.blk.takes (m.input late) = (m.told late).map Entry.head := by
    rw [Blk.takes, hhandle]
  have hunparks : m.sys.blk.unparks m.thread (m.input late) =
      (m.told late).filterMap (Entry.wakes m.sys.blk.slots m.thread) := by
    rw [Blk.unparks, hpending, if_neg hroom, hwoken]
  have hm : m.handle late = some (m.drained late blk') := by
    rw [handle, if_pos hlate, hstep, Option.map_some, hmoved, htakes, hunparks]
    rfl
  obtain ⟨free₁, chains₁, c, i₁⟩ := i₀.step hstep
  have hrest : ∀ e ∈ (m.drained late blk').unread, e ∈ m.unread ∧
      e.head ∉ (m.told late).map Entry.head := by
    intro e he
    rw [unread_drained] at he
    refine ⟨List.mem_of_mem_drop he, fun htold => ?_⟩
    have hnodup := i.distinct
    rw [← List.take_append_drop (m.unread.length - late) m.unread, List.map_append] at hnodup
    exact List.disjoint_of_nodup_append hnodup htold (List.mem_map_of_mem he)
  refine ⟨_, hm, ⟨rfl, rfl, rfl, hslots, rfl⟩, ⟨free₁, chains₁, i₁⟩, i.running, ?_, i.usedIdx, ?_,
    i.ring.mono (Nat.le_add_right ..), fun e he => ?_, ?_, fun e he => i.status e (hrest e he).1,
    fun e he => ?_, fun h sl hsl hdone => ?_, ?_⟩
  · have hle := i.consumed
    change m.consumed + (m.told late).length ≤ m.appended.length
    rw [length_told (m.length_unread ▸ hlate)]
    omega
  · change blk'.lastUsed = (m.consumed + (m.told late).length) % 2 ^ 16
    rw [hlast', i.lastUsed, Nat.mod_add_mod]
  · obtain ⟨hmem, hnot⟩ := hrest e he
    exact (hkept e.head hnot).trans (i.flight e hmem)
  · rw [unread_drained, List.map_drop]
    exact i.distinct.sublist (List.drop_sublist _ _)
  · change m.served e.head = some e ∧ (blk'.bounce e.head).take e.bytes.length = e.bytes
    rw [hbounce]
    exact i.served e (hrest e he).1
  · change blk'.slots h = some sl at hsl
    change ∃ e, m.served h = some e ∧ sl.status = e.status ∧ sl.len = e.len ∧
      (blk'.bounce h).take e.bytes.length = e.bytes
    rw [hbounce]
    rw [hslots] at hsl
    by_cases htold : h ∈ (m.told late).map Entry.head
    · obtain ⟨e, he, rfl⟩ := List.mem_map.mp htold
      rw [settleAll_of_mem hdistinct he] at hsl
      obtain ⟨hstatus, hlen⟩ := e.settle_eq_some hsl
      obtain ⟨hserved, hbytes⟩ := i.served e (hsub e he)
      exact ⟨e, hserved, hstatus, hlen, hbytes⟩
    · rw [settleAll_of_not_mem htold] at hsl
      exact i.done h sl hsl hdone
  · change m.taken ++ (m.told late).map Entry.head =
      (m.appended.take (m.consumed + (m.told late).length)).map Entry.head
    rw [List.take_add, List.map_append, ← i.taken]
    change _ = m.taken ++ (m.unread.take (m.told late).length).map Entry.head
    rw [told, List.length_take, Nat.min_eq_left (Nat.sub_le ..)]

theorem Inv.step (i : Inv m) {a : MachineAct} (h : Step m a m') : Inv m' := by
  cases a with
  | driver a =>
    obtain ⟨hsoft, hdriver⟩ := Option.ite_none_right_eq_some.mp h
    exact i.driver_step hsoft hdriver
  | complete e => exact i.complete_step h
  | handle late =>
    obtain ⟨hlate, -⟩ := Option.ite_none_right_eq_some.mp (show m.handle late = some m' from h)
    obtain ⟨m₁, hm₁, -, i₁⟩ := i.handle_eq hlate
    exact Option.mem_unique hm₁ h ▸ i₁

theorem Inv.of_run {metaPhys dataPhys : Nat} {bounce : Nat → Bytes} {used : Nat → Fin 8 → UInt8}
    {status : Nat → UInt8} {as : List MachineAct}
    (hrun : Run Step (.boot metaPhys dataPhys bounce used status) as m) : Inv m :=
  hrun.invariant (fun _ _ _ i h => i.step h) (.boot metaPhys dataPhys bounce used status)

theorem Inv.undone (i : Inv m) (he : e ∈ m.unread) :
    ∃ sl, m.sys.blk.slots e.head = some sl ∧ sl.done = false := by
  obtain ⟨free, chains, i₀⟩ := i.driver
  obtain ⟨sl, hsl⟩ := i₀.owned.live e.head (i.flight e he)
  exact ⟨sl, hsl, by simpa [i.flight e he] using i₀.owned.flight e.head sl hsl⟩

/-- In every run the heads taken are those of the entries appended, in order, up to
`consumed`. The handler returns wherever it runs, and takes all it was told of: the
request of each entry becomes done with the status and the length written for it,
and its thread is unparked, unless the request was abandoned: then its slot is
released. No other slot changes, and no other thread is unparked. -/
theorem entries_consumed_once {metaPhys dataPhys : Nat} {bounce : Nat → Bytes}
    {used : Nat → Fin 8 → UInt8} {status : Nat → UInt8} {as : List MachineAct}
    (hrun : Run Step (.boot metaPhys dataPhys bounce used status) as m) :
    m.taken = (m.appended.take m.consumed).map Entry.head ∧
      ∀ late ≤ m.unread.length, ∃ m', Step m (.handle late) m' ∧ m'.appended = m.appended ∧
        m'.consumed + late = m.appended.length ∧
        m'.taken = m.taken ++ (m.told late).map Entry.head ∧
        (∀ e ∈ m.told late, ∃ sl, m.sys.blk.slots e.head = some sl ∧ sl.done = false ∧
          m'.sys.blk.slots e.head =
            if sl.abandoned then none
            else some { sl with done := true, status := e.status, len := e.len }) ∧
        (∀ h, h ∉ (m.told late).map Entry.head → m'.sys.blk.slots h = m.sys.blk.slots h) ∧
        m'.unparked =
          m.unparked ++ (m.told late).filterMap (Entry.wakes m.sys.blk.slots m.thread) := by
  have i := Inv.of_run hrun
  refine ⟨i.taken, fun late hlate => ?_⟩
  obtain ⟨m', hm', d, -⟩ := i.handle_eq hlate
  refine ⟨m', hm', d.appended, ?_, d.taken, fun e he => ?_, fun h hh => ?_, d.unparked⟩
  · have hle := i.consumed
    rw [d.consumed, length_told hlate]
    rw [m.length_unread] at hlate
    omega
  · obtain ⟨sl, hsl, hundone⟩ := i.undone (List.mem_of_mem_take he)
    have hnodup : ((m.told late).map Entry.head).Nodup := by
      rw [told, List.map_take]
      exact i.distinct.sublist (List.take_sublist _ _)
    refine ⟨sl, hsl, hundone, ?_⟩
    rw [d.slots, settleAll_of_mem hnodup he, hsl]
    rfl
  · rw [d.slots, settleAll_of_not_mem hh]

/-- Two reads that the device completes in the other order, with one interrupt. -/
def twoReads : List MachineAct :=
  [.driver (.call 0 .readSector), .driver (.reserve 0 true), .driver (.advance 0),
    .driver (.call 1 .readSector), .driver (.reserve 1 true), .driver (.advance 1),
    .complete ⟨3, [], 0, 513⟩, .complete ⟨0, [], 1, 1⟩]

theorem entries_consumed_once_coalesced :
    ∃ m, Run Step (.boot 0 0 (fun _ => []) (fun _ _ => 0) fun _ => 0) twoReads m ∧
      ∃ m', Step m (.handle 0) m' ∧ m'.consumed = 2 ∧ m'.taken = [3, 0] ∧ m'.unparked = [1, 0] ∧
        m'.sys.blk.slots 0 = some { done := true, status := 1, len := 1, abandoned := false } := by
  refine exists_run_of_exec
    (p := fun m => m.appended = [⟨3, [], 0, 513⟩, ⟨0, [], 1, 1⟩] ∧ m.consumed = 0 ∧
      m.taken = [] ∧ m.unparked = [] ∧ m.thread 3 = 1 ∧ m.thread 0 = 0 ∧
      m.sys.blk.slots 0 = some { done := false, status := 0xff, len := 0, abandoned := false } ∧
      m.sys.blk.slots 3 = some { done := false, status := 0xff, len := 0, abandoned := false })
    (by decide +kernel) fun m hrun hend => ?_
  obtain ⟨happended, hconsumed, htaken, hunparked, hthread₁, hthread₀, hslot₀, hslot₃⟩ := hend
  have htold : m.told 0 = [⟨3, [], 0, 513⟩, ⟨0, [], 1, 1⟩] := by
    simp [told, unread, happended, hconsumed]
  obtain ⟨-, hhandle⟩ := entries_consumed_once hrun
  obtain ⟨m', hm', -, hcount, htakes, hdone, -, hwoken⟩ := hhandle 0 (Nat.zero_le _)
  refine ⟨m', hm', by simpa [happended] using hcount, ?_, ?_, ?_⟩
  · rw [htakes, htaken, htold]
    rfl
  · rw [hwoken, hunparked, htold]
    simp [Entry.wakes, hslot₀, hslot₃, hthread₀, hthread₁]
  · obtain ⟨sl, hsl, -, hsl'⟩ := hdone ⟨0, [], 1, 1⟩ (by simp [htold])
    rw [hslot₀] at hsl
    cases hsl
    exact hsl'

/-- The completion of a request whose call timed out is consumed, and nobody is
unparked. -/
theorem abandoned_unparks_nobody :
    ∃ m, Run Step (.boot 0 0 (fun _ => []) (fun _ _ => 0) fun _ => 0)
      ([.driver (.call 0 .readSector), .driver (.reserve 0 true), .driver (.advance 0)] ++
        List.replicate requestTimeoutTicks (.driver .tick) ++
        [.driver (.advance 0), .driver (.advance 0), .driver (.advance 0),
          .complete ⟨0, [], 0, 513⟩, .handle 0]) m ∧
      m.appended = [⟨0, [], 0, 513⟩] ∧ m.taken = [0] ∧ m.sys.blk.slots 0 = none ∧
      m.unparked = [] :=
  exists_run_of_exec (by decide +kernel) fun _ _ hend => hend

end Machine

end Qunix.Block
