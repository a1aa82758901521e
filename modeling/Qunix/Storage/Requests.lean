/-
Requests between the cache, the driver and the disk.

Each call in the driver serves the request its thread's task awaits, with its
header and its bytes in the memory of its head (`Sent`). A write that the device
has not performed is of a block that is dirty in the cache, and no writeback of
the block has been told that it succeeded (`Coupled.clear`); a call that has its
answer left the disk as the answer says (`Pending`, `Fulfilled`).
-/

import Qunix.Storage.Machine

namespace Qunix.Block

open Function Qunix.Lib Qunix.Virtio
open Qunix.BufferCache (Bytes BlockError blockBytes)

/-- The request of a call that has not returned. -/
def Call.request? : Call → Option Request
  | .reserve r | .submit r _ | .poll r _ _ | .expire r _ _
  | .waiting r _ _ | .finish r _ _ => some r
  | .idle | .done _ _ => none

variable {c : Call} {h : Nat} {d d' : Sys} {a : Act} {chains chains' : List (List Nat)}

theorem Call.request?_of_sent? {r : Request} (hc : c.sent? = some (r, h)) :
    c.request? = some r := by
  cases c <;> simp_all [sent?, request?]

/-- A request for one block. -/
structure Request.Whole (r : Request) : Prop where
  len : r.len = blockBytes
  data : ∀ bytes, r.out = some bytes → bytes.length = blockBytes

/-- The requests of the calls stand in the memory of their heads, and a slot
records what the device answered. -/
structure Sent (d : Sys) (served : Nat → Option UInt8) : Prop where
  whole : ∀ t r, (d.calls t).request? = some r → r.Whole
  header : ∀ t r h, (d.calls t).sent? = some (r, h) → d.blk.header h = r.header
  data : ∀ t r h bytes, (d.calls t).sent? = some (r, h) → r.out = some bytes →
    (d.blk.bounce h).take blockBytes = bytes
  done : ∀ h sl, d.blk.slots h = some sl → sl.done = true → served h = some sl.status

/-- A step that publishes nothing and takes no completion: calls go on or end. -/
structure Subsides (d d' : Sys) : Prop where
  header : d'.blk.header = d.blk.header
  bounce : d'.blk.bounce = d.blk.bounce
  flight : ∀ h, d'.blk.queue.inFlight h = true → d.blk.queue.inFlight h = true
  slots : ∀ h sl', d'.blk.slots h = some sl' → ∃ sl, d.blk.slots h = some sl ∧
    sl.done = sl'.done ∧ sl.status = sl'.status
  sent : ∀ t r h, (d'.calls t).sent? = some (r, h) → (d.calls t).sent? = some (r, h)
  request : ∀ t r, (d'.calls t).request? = some r → (d.calls t).request? = some r

/-- A queue that was freed a chain, or told of a completion, has no new one in
flight. -/
theorem inFlight_before {q q' : SplitQueue} {k : Nat} (hq : q'.inFlight = update q.inFlight h false)
    (hk : q'.inFlight k = true) :
    q.inFlight k = true := by
  rw [hq] at hk
  exact eq_of_update id hk nofun

namespace Subsides

variable {d : Sys} {t : Nat} {c : Call}

theorem of_call {blk' : Blk} (hh : blk'.header = d.blk.header)
    (hb : blk'.bounce = d.blk.bounce)
    (hf : ∀ h, blk'.queue.inFlight h = true → d.blk.queue.inFlight h = true)
    (hs : ∀ h sl', blk'.slots h = some sl' → ∃ sl, d.blk.slots h = some sl ∧
      sl.done = sl'.done ∧ sl.status = sl'.status)
    (hse : ∀ p, c.sent? = some p → (d.calls t).sent? = some p)
    (hr : ∀ r, c.request? = some r → (d.calls t).request? = some r) :
    Subsides d ({ d with blk := blk' }.setCall t c) := by
  refine ⟨hh, hb, hf, hs, fun u r h hu => ?_, fun u r hu => ?_⟩
  · exact eq_of_update Call.sent? hu (hse _)
  · exact eq_of_update Call.request? hu (hr _)

theorem call (hs : ∀ p, c.sent? = some p → (d.calls t).sent? = some p)
    (hr : ∀ r, c.request? = some r → (d.calls t).request? = some r) :
    Subsides d (d.setCall t c) :=
  of_call rfl rfl (fun _ => id) (fun _ sl' hsl' => ⟨sl', hsl', rfl, rfl⟩) hs hr

variable {h : Nat}

theorem freed {q : SplitQueue} (hq : q.inFlight = update d.blk.queue.inFlight h false)
    (hc : c.request? = none) (hc' : c.sent? = none) :
    Subsides d
      ({ d with blk := { d.blk with queue := q, slots := update d.blk.slots h none } }.setCall t
        c) := by
  refine of_call rfl rfl (fun _ => inFlight_before hq) (fun k sl' hsl' => ?_) (by simp [hc'])
    (by simp [hc])
  exact ⟨sl', eq_of_update id hsl' nofun, rfl, rfl⟩

theorem abandoned (hc : c.request? = none) (hc' : c.sent? = none) :
    Subsides d ({ d with blk := d.blk.abandon h }.setCall t c) := by
  refine of_call rfl rfl (fun _ => id) (fun k sl' hsl' => ?_) (by simp [hc']) (by simp [hc])
  change update d.blk.slots h _ k = _ at hsl'
  by_cases hkh : k = h
  · rw [hkh, update_self] at hsl'
    obtain ⟨sl, hsl, rfl⟩ := Option.map_eq_some_iff.mp hsl'
    exact ⟨sl, hkh ▸ hsl, rfl, rfl⟩
  · rw [update_of_ne hkh] at hsl'
    exact ⟨sl', hsl', rfl, rfl⟩

end Subsides

theorem Sent.subside {served : Nat → Option UInt8} (k : Sent d served) (hs : Subsides d d') :
    Sent d' served where
  whole t r hr := k.whole t r (hs.request t r hr)
  header t r h hc := by
    rw [hs.header]
    exact k.header t r h (hs.sent t r h hc)
  data t r h bytes hc hout := by
    rw [hs.bounce]
    exact k.data t r h bytes (hs.sent t r h hc) hout
  done h sl' hsl' hdo := by
    obtain ⟨sl, hsl, hd, hst⟩ := hs.slots h sl' hsl'
    rw [k.done h sl hsl (hd.trans hdo), hst]

/-! ### Steps of a call -/

/-- The request of a call that is about to return `Ok`, and what it copied. -/
def Sys.Finishing (d : Sys) (t : Nat) (copied : Option Bytes) : Prop :=
  ∃ r h sl, d.calls t = .finish r h sl.status ∧ d.blk.slots h = some sl ∧ sl.done = true ∧
    sl.status = 0 ∧ ∀ len, r.into = some len → copied = some ((d.blk.bounce h).take len)

/-- What a step of a call does. -/
inductive Effect (d : Sys) (a : Act) (d' : Sys) : Prop where
  | subsided : Subsides d d' →
      (∀ t copied, d'.calls t = .done (.ok ()) copied →
        d.calls t = .done (.ok ()) copied ∨ d.Finishing t copied) →
      (∀ h c, d.event a d' ≠ some (.published h c)) → Effect d a d'
  | published {t deadline h : Nat} {r : Request} {c : List Nat} {q : SplitQueue} : a = .advance t →
      d.calls t = .submit r deadline → d.blk.slots h = none →
      q.inFlight = update d.blk.queue.inFlight h true →
      d' = { d with blk := d.blk.record q h r }.setCall t (.poll r h deadline) →
      d.event a d' = some (.published h c) → Effect d a d'

theorem Effect.of_subsides {t : Nat} (hs : Subsides d d') (hca : d'.calls = update d.calls t c)
    (hc : ∀ copied, c ≠ .done (.ok ()) copied)
    (he : ∀ h c, d.event a d' ≠ some (.published h c)) : Effect d a d' := by
  refine .subsided hs (fun u copied hu => ?_) he
  rw [hca] at hu
  exact .inl (eq_of_update id hu fun heq => absurd heq (hc copied))

theorem Change.effect (c : Change d chains a d' chains')
    (ha : (∃ t room, a = .reserve t room) ∨ (∃ t, a = .advance t) ∨ ∃ t, a = .drop t) :
    Effect d a d' := by
  cases c with
  | ticked | called | handled | dma => simp at ha
  | reserved hc =>
    exact .of_subsides (.call (by simp [Call.sent?])
      fun r hr => by rw [hc]; exact hr) rfl (by simp) (by simp [Sys.event])
  | unreserved =>
    exact .of_subsides (.call (by simp [Call.sent?])
      (by simp [Call.request?])) rfl (by simp) (by simp [Sys.event])
  | refused hc =>
    exact .of_subsides (.call (by simp [Call.sent?])
      (by simp [Call.request?])) rfl (by simp) (by simp [Sys.event, Sys.setCall, hc])
  | @submitted t deadline h r c q hc hs _ hq hch =>
    refine .published rfl hc hs hq rfl (c := h :: c) ?_
    simp [Sys.event, Sys.setCall, hc, Blk.record, hch]
  | waited hc =>
    rcases hc with ⟨hc, rfl⟩ | ⟨hc, rfl⟩ | ⟨hc, rfl⟩ <;>
      exact .of_subsides (.call (fun p hp => by rw [hc]; exact hp) fun r hr => by
        rw [hc]; exact hr) rfl (by simp) (by simp [Sys.event, hc])
  | polled hc | expired hc =>
    exact .of_subsides (.call (fun p hp => by rw [hc]; exact hp) fun r hr => by
      rw [hc]; exact hr) rfl (by simp) (by simp [Sys.event, hc])
  | @finished t h r sl q c chains' result copied hc hst hsl hd hq hp hok =>
    refine .subsided (.freed hq rfl rfl) (fun u copied' hu => ?_) (by simp [Sys.event, hc])
    change update d.calls t _ u = _ at hu
    rw [update_apply] at hu
    split_ifs at hu with hut
    · injection hu with hre hco
      obtain ⟨hz, hread⟩ := hok hre
      exact .inr ⟨r, h, sl, hut ▸ hc, hsl, hd, hz, hco ▸ hread⟩
    · exact .inl hu
  | timedOut hc =>
    exact .of_subsides (.abandoned rfl rfl) rfl (by simp) (by simp [Sys.event, hc])
  | droppedDone hc hsl hd hq hp =>
    exact .of_subsides (.freed hq rfl rfl) rfl (by simp) (by simp [Sys.event])
  | dropped => exact .of_subsides (.abandoned rfl rfl) rfl (by simp) (by simp [Sys.event])

theorem Handled.spec {d : DeviceInput} {n : Nat} {blk blk' : Blk} {taken : List Nat}
    (hh : Handled d n blk chains taken blk' chains') :
    blk'.header = blk.header ∧ blk'.bounce = blk.bounce ∧
      (∀ h, blk'.queue.inFlight h = true → blk.queue.inFlight h = true) ∧
      ∀ h sl', blk'.slots h = some sl' → sl'.done = true →
        blk.slots h = some sl' ∨ ∃ k < n, (UsedElem.ofBytes (d.entries k)).id = h ∧
          blk.queue.inFlight h = true ∧ sl'.status = d.status k := by
  induction hh with
  | nil => exact ⟨rfl, rfl, fun _ => id, fun h sl' hsl' _ => .inl hsl'⟩
  | skipped hq _ ih =>
    obtain ⟨hhe, hb, hf, hs⟩ := ih
    simp only [hq] at hf hs
    exact ⟨hhe, hb, hf, hs⟩
  | @landed blk blk' _ _ _ h k len sl q _ hsl _ _ hfly hk he hq _ ih =>
    obtain ⟨hhe, hb, hf, hs⟩ := ih
    refine ⟨hhe, hb, fun h' hh' => inFlight_before hq (hf h' hh'),
      fun h' sl' hsl' hd => ?_⟩
    rcases hs h' sl' hsl' hd with hold | ⟨k', hk', hid, hfly', hst⟩
    · by_cases hne : h' = h
      · simp only [hne, update_self, Option.some.injEq] at hold
        exact .inr ⟨k, hk, by rw [he, hne], hne ▸ hfly, by rw [← hold]⟩
      · exact .inl (by simpa [update_of_ne hne] using hold)
    · exact .inr ⟨k', hk', hid, inFlight_before hq hfly', hst⟩
  | @freed blk blk' _ _ _ _ _ h k len sl q _ hsl _ _ hfly hk he hq _ _ ih =>
    obtain ⟨hhe, hb, hf, hs⟩ := ih
    refine ⟨hhe, hb, fun h' hh' => inFlight_before hq (hf h' hh'),
      fun h' sl' hsl' hd => ?_⟩
    rcases hs h' sl' hsl' hd with hold | ⟨k', hk', hid, hfly', hst⟩
    · by_cases hne : h' = h
      · simp [hne] at hold
      · exact .inl (by simpa [update_of_ne hne] using hold)
    · exact .inr ⟨k', hk', hid, inFlight_before hq hfly', hst⟩

namespace Sent

variable {d : Sys} {served : Nat → Option UInt8}

theorem published (k : Sent d served) (hh : Held d.blk d.calls) {t deadline h : Nat} {r : Request}
    {q : SplitQueue} (hc : d.calls t = .submit r deadline) (hs : d.blk.slots h = none) :
    Sent ({ d with blk := d.blk.record q h r }.setCall t (.poll r h deadline))
      (update served h none) := by
  -- The other calls have other heads.
  have ho : ∀ u r' h', (update d.calls t (.poll r h deadline) u).sent? = some (r', h') →
      u = t ∧ r' = r ∧ h' = h ∨ h' ≠ h ∧ (d.calls u).sent? = some (r', h') := by
    intro u r' h' hu
    rw [update_apply] at hu
    split_ifs at hu with hut
    · cases hu
      exact .inl ⟨hut, rfl, rfl⟩
    · refine .inr ⟨?_, hu⟩
      rintro rfl
      obtain ⟨sl, hsl, -⟩ := hh.owner u h' (Call.head?_of_sent? hu)
      rw [hs] at hsl
      cases hsl
  have hw := k.whole t r (by rw [hc]; rfl)
  refine ⟨fun u r' hu => ?_, fun u r' h' hu => ?_, fun u r' h' bytes hu hout => ?_,
    fun h' sl hsl hd => ?_⟩
  · change (update d.calls t _ u).request? = _ at hu
    rw [update_apply] at hu
    split_ifs at hu with hut
    · exact Option.some.inj hu ▸ hw
    · exact k.whole u r' hu
  · rcases ho u r' h' hu with ⟨-, rfl, rfl⟩ | ⟨hne, hu⟩
    · exact update_self ..
    · exact (update_of_ne hne ..).trans (k.header u r' h' hu)
  · rcases ho u r' h' hu with ⟨-, rfl, rfl⟩ | ⟨hne, hu⟩
    · simp [Sys.setCall, Blk.record, hout, hw.data bytes hout]
    · refine Eq.trans (congrArg (List.take blockBytes) ?_) (k.data u r' h' bytes hu hout)
      exact update_of_ne hne ..
  · by_cases hne : h' = h
    · rw [hne] at hsl
      have := (update_self ..).symm.trans hsl
      rw [← Option.some.inj this] at hd
      cases hd
    · rw [update_of_ne hne]
      exact k.done h' sl ((Blk.record_slots_of_ne hne).symm.trans hsl) hd

/-- The handler records what a truthful device has answered. -/
theorem handled (k : Sent d served) {input : DeviceInput} {n : Nat} {blk' : Blk}
    {chains chains' : List (List Nat)} {taken : List Nat}
    (hh : Handled input n d.blk chains taken blk' chains')
    (hho : ∀ j < n, d.blk.queue.inFlight (UsedElem.ofBytes (input.entries j)).id = true →
      served (UsedElem.ofBytes (input.entries j)).id = some (input.status j)) :
    Sent { d with blk := blk' } served := by
  obtain ⟨hhe, hb, -, hslots⟩ := hh.spec
  refine ⟨k.whole, fun t r h hu => ?_, fun t r h bytes hu hout => ?_, fun h sl hsl hd => ?_⟩
  · exact (congrFun hhe h).trans (k.header t r h hu)
  · exact (congrArg (List.take blockBytes) (congrFun hb h)).trans (k.data t r h bytes hu hout)
  · rcases hslots h sl hsl hd with hold | ⟨j, hj, rfl, hfly, hs⟩
    · exact k.done h sl hold hd
    · rw [hho j hj hfly, hs]

end Sent

end Qunix.Block
