/-
Whose verdict a call returns (`STATUS_TIMED_OUT`, `Completion` and `finish` in
`kernel/src/block.rs`).

The status byte, the reported length and the deadline meet in `finish`, behind one
byte: 0xfe stands for a deadline that has passed. `Timed` keeps beside the calls
when the handler recorded a completion and what the device said in it, the
deadline of each call, and what was recorded when the deadline was found to have
passed. Over any device, the call's answer is the device's exactly when none of
three things happened: the completion was recorded between `poll_device` and the
poll of the deadline that failed, the device's byte is the driver's own 0xfe, or a
read that failed has a short length as well.
-/

import Qunix.Block.Exclusive

namespace Qunix.Block

open Function Qunix.Virtio Qunix.Lib
open Qunix.BufferCache (Bytes BlkStatus BlockError)

/-! ### The answer of `finish` -/

variable {r : Request} {b : UInt8}

theorem Request.into_eq_some {len : Nat} :
    r.into = some len ↔ r.out = none ∧ r.len = len := by
  unfold Request.into
  cases r.out with
  | none | some bytes => simp

theorem answerOf_ne_timeout (b : UInt8) : answerOf b ≠ .error .timeout := by
  unfold answerOf
  cases statusFromByte b with
  | _ => simp

/-- The length that is recorded for a head. -/
def Blk.reported (blk : Blk) (head : Nat) : Nat := ((blk.slots head).map (·.len)).getD 0

/-- The three ways in which `finish` returns. -/
inductive Finished (blk : Blk) (head : Nat) (status : UInt8) (into : Option Nat) :
    Except BlockError Unit → Option Bytes → Prop where
  | timeout : status = statusTimedOut → Finished blk head status into (.error .timeout) none
  | short {len : Nat} : status ≠ statusTimedOut → into = some len → blk.reported head < len →
      Finished blk head status into (.error .short) none
  | told : status ≠ statusTimedOut → (∀ len, into = some len → len ≤ blk.reported head) →
      Finished blk head status into (answerOf status)
        (into.map fun len => (blk.bounce head).take len)

theorem Blk.finished {blk blk' : Blk} {head : Nat} {status : UInt8} {into : Option Nat}
    {result : Except BlockError Unit} {copied : Option Bytes}
    (h : blk.finish head status into = .ok (result, copied, blk')) :
    Finished blk head status into result copied := by
  unfold Blk.finish at h
  by_cases ht : status = statusTimedOut
  · simp only [if_pos ht] at h
    obtain ⟨rfl, rfl, -⟩ := h
    exact .timeout ht
  · simp only [if_neg ht] at h
    cases into with
    | none =>
      obtain ⟨_, -, h⟩ := bind_eq_ok h
      cases h
      exact .told ht nofun
    | some len =>
      simp only at h
      split_ifs at h with hs
      · obtain ⟨_, -, h⟩ := bind_eq_ok h
        cases h
        refine .short ht rfl ?_
        simpa [transferSatisfied, Blk.reported] using hs
      · obtain ⟨_, -, h⟩ := bind_eq_ok h
        cases h
        refine .told ht fun len' hlen => ?_
        cases hlen
        simpa [transferSatisfied, Blk.reported] using hs

theorem Inv.finish_step {s : Sys} {free : List Nat} {chains : List (List Nat)} {t h : Nat}
    {st : UInt8} (i : Inv s free chains) (hr : s.panicked = none)
    (hc : s.calls t = .finish r h st) :
    ∃ s' result copied, s.step (.advance t) = some s' ∧ s'.calls t = .done result copied ∧
      Finished s.blk h st r.into result copied := by
  have hre : ∃ result copied blk', s.blk.finish h st r.into = .ok (result, copied, blk') := by
    by_cases hst : st = statusTimedOut
    · exact ⟨_, _, _, if_pos hst⟩
    · obtain ⟨sl, q, c, chains', free', result, copied, -, -, -, hf, -⟩ := i.finish_eq hc hst
      exact ⟨result, copied, _, hf⟩
  obtain ⟨result, copied, blk', hf⟩ := hre
  refine ⟨{ s with blk := blk' }.setCall t (.done result copied), result, copied, ?_,
    update_self .., Blk.finished hf⟩
  simp [Sys.step, hr, Sys.advance, hc, Sys.finish, hf]

/-! ### The calls with their times -/

/-- A completion in its slot: the tick in which the handler recorded it, and what
the device said. -/
structure Record where
  tick : Nat
  status : UInt8
  len : Nat
deriving DecidableEq

structure Timed where
  sys : Sys
  /-- The completion recorded for the request of a head. -/
  noted : Nat → Option Record
  /-- The deadline of a thread's call. -/
  due : Nat → Nat
  /-- The tick in which the call's deadline was found to have passed, and whether its
  completion was recorded by then. -/
  expiry : Nat → Option (Nat × Bool)

namespace Timed

def boot (metaPhys dataPhys : Nat) (bounce : Nat → Bytes) : Timed where
  sys := .boot metaPhys dataPhys bounce
  noted := fun _ => none
  due := fun _ => 0
  expiry := fun _ => none

/-- A slot that has become done is a completion recorded now. -/
def note (m : Timed) (sys : Sys) (h : Nat) : Option Record :=
  match sys.blk.slots h with
  | none => none
  | some sl => if sl.done then some ((m.noted h).getD ⟨m.sys.ticks, sl.status, sl.len⟩) else none

def after (m : Timed) (a : Act) (sys : Sys) : Timed :=
  let m' := { m with sys := sys, noted := m.note sys }
  match a with
  | .advance t =>
    match m.sys.calls t, sys.calls t with
    | .submit _ deadline, _ =>
      { m' with due := update m.due t deadline, expiry := update m.expiry t none }
    | .expire _ head _, .finish _ _ _ =>
      { m' with expiry := update m.expiry t (some (m.sys.ticks, (m.noted head).isSome)) }
    | _, _ => m'
  | _ => m'

def step (m : Timed) (a : Act) : Option Timed := (m.sys.step a).map (m.after a)

def Step (m : Timed) (a : Act) (m' : Timed) : Prop := m.step a = some m'

end Timed

/-- The deadline of a call that waits for its completion. -/
def Call.deadline? : Call → Option Nat
  | .poll _ _ deadline | .expire _ _ deadline | .waiting _ _ deadline => some deadline
  | _ => none

namespace Timed

/-- The answer is the device's: a completion that was recorded before the deadline and
is not a success is what the call returns, and a timeout means that the deadline
was found to have passed with no completion recorded. -/
def Truthful (m : Timed) (t head : Nat) (result : Except BlockError Unit) : Prop :=
  (∀ c, m.noted head = some c → c.tick < m.due t → c.status ≠ 0 →
    result = .error (.device (statusFromByte c.status))) ∧
  (result = .error .timeout → ∃ tick, m.due t ≤ tick ∧ m.expiry t = some (tick, false))

/-- The deadline was not found to have passed after the completion was recorded; and
if `poll_device` found the completion, its byte is not the driver's own for a
timeout, and a read that failed before the deadline has its whole length. -/
def Unconfused (m : Timed) (t : Nat) (r : Request) (head : Nat) : Prop :=
  (∀ tick, m.expiry t ≠ some (tick, true)) ∧
  (m.expiry t = none → ∀ c, m.noted head = some c → c.status ≠ statusTimedOut ∧
    (c.tick < m.due t → c.status ≠ 0 → r.out = none → r.len ≤ c.len))

structure Inv (m : Timed) : Prop where
  driver : ∃ free chains, Block.Inv m.sys free chains
  running : m.sys.panicked = none
  noted : ∀ h, (m.noted h).map (fun c => (c.status, c.len)) =
    (m.sys.blk.slots h).bind fun sl => if sl.done then some (sl.status, sl.len) else none
  waiting : ∀ t deadline, (m.sys.calls t).deadline? = some deadline →
    m.due t = deadline ∧ m.expiry t = none
  finishing : ∀ t r h st, m.sys.calls t = .finish r h st →
    (m.expiry t = none ∧ ∃ c, m.noted h = some c ∧ c.status = st) ∨
      ∃ tick recorded, m.expiry t = some (tick, recorded) ∧ st = statusTimedOut ∧
        m.due t ≤ tick ∧ tick ≤ m.sys.ticks ∧
        (recorded = false → ∀ c, m.noted h = some c → tick ≤ c.tick)

variable {m m' : Timed} {a : Act} {sys : Sys} {t h : Nat}

@[simp] theorem sys_after : (m.after a sys).sys = sys := by
  unfold after
  repeat' split
  all_goals rfl

@[simp] theorem noted_after : (m.after a sys).noted = m.note sys := by
  unfold after
  repeat' split
  all_goals rfl

theorem after_of_ne (m : Timed) (sys : Sys) (ht : a.thread? ≠ some t) :
    (m.after a sys).due t = m.due t ∧ (m.after a sys).expiry t = m.expiry t := by
  unfold after
  split
  · rename_i u
    have hne : t ≠ u := fun h => ht (h ▸ rfl)
    split <;> simp [update_of_ne hne]
  · exact ⟨rfl, rfl⟩

theorem note_eq_some {c : Record} (h' : m.note sys h = some c) :
    m.noted h = some c ∨ c.tick = m.sys.ticks := by
  unfold note at h'
  cases hsl : sys.blk.slots h with
  | none => simp [hsl] at h'
  | some sl =>
    simp only [hsl] at h'
    obtain ⟨-, heq⟩ := Option.ite_none_right_eq_some.mp h'
    cases hn : m.noted h with
    | none =>
      rw [hn] at heq
      cases heq
      exact .inr rfl
    | some c' =>
      rw [hn] at heq
      exact .inl heq

section Step

variable {chains chains' : List (List Nat)} {c : Record} {sl' : Slot}

variable (i : Inv m)

include i

theorem Inv.slot_of_noted (hc : m.noted h = some c) :
    ∃ sl, m.sys.blk.slots h = some sl ∧ sl.done = true ∧ sl.status = c.status ∧
      sl.len = c.len := by
  have hn := i.noted h
  rw [hc] at hn
  obtain ⟨sl, hsl, hd⟩ := Option.bind_eq_some_iff.mp hn.symm
  obtain ⟨hd, heq⟩ := Option.ite_none_right_eq_some.mp hd
  obtain ⟨hs, hlen⟩ := Prod.mk.inj (Option.some.inj heq)
  exact ⟨sl, hsl, hd, hs, hlen⟩

theorem Inv.noted_of_slot {sl : Slot} (hsl : m.sys.blk.slots h = some sl)
    (hd : sl.done = true) : ∃ c, m.noted h = some c ∧ c.status = sl.status := by
  have hn := i.noted h
  rw [hsl, Option.bind_some, if_pos hd] at hn
  obtain ⟨c, hc, heq⟩ := Option.map_eq_some_iff.mp hn
  exact ⟨c, hc, (Prod.mk.inj heq).1⟩

section

variable (ch : Change m.sys chains a sys chains')

include ch

theorem Inv.slot_kept (hc : m.noted h = some c)
    (hsl' : sys.blk.slots h = some sl') :
    sl'.done = true ∧ sl'.status = c.status ∧ sl'.len = c.len := by
  obtain ⟨sl, hsl, hd, hs, hlen⟩ := i.slot_of_noted hc
  rcases ch.slot_cases hsl' with ⟨hn, -⟩ | ⟨sl₁, hsl₁, h₁, h₂, h₃⟩ | ⟨-, sl₁, hsl₁, hu, -⟩
  · rw [hsl] at hn
    cases hn
  · cases hsl.symm.trans hsl₁
    exact ⟨h₁.trans hd, h₂.trans hs, h₃.trans hlen⟩
  · cases hsl.symm.trans hsl₁
    rw [hd] at hu
    cases hu

theorem Inv.note_kept (hc : m.noted h = some c)
    (hsl' : sys.blk.slots h = some sl') : m.note sys h = some c := by
  obtain ⟨hd, -, -⟩ := i.slot_kept ch hc hsl'
  simp [note, hsl', hd, hc]

theorem Inv.noted_note (h : Nat) :
    (m.note sys h).map (fun c => (c.status, c.len)) =
      (sys.blk.slots h).bind fun sl => if sl.done then some (sl.status, sl.len) else none := by
  cases hsl' : sys.blk.slots h with
  | none => simp [note, hsl']
  | some sl' =>
    cases hc : m.noted h with
    | none => cases hd : sl'.done <;> simp [note, hsl', hd, hc]
    | some c =>
      obtain ⟨hd, hs, hlen⟩ := i.slot_kept ch hc hsl'
      simp [note, hsl', hd, hc, hs, hlen]

theorem Inv.waiting_after {deadline : Nat}
    (hd : (sys.calls t).deadline? = some deadline) :
    (m.after a sys).due t = deadline ∧ (m.after a sys).expiry t = none := by
  by_cases ht : a.thread? = some t
  · cases ch with
    | submitted hc =>
      cases ht
      simp only [Sys.setCall, update_self, Call.deadline?, Option.some.injEq] at hd
      simp [after, hc, hd]
    | waited hc =>
      cases ht
      rcases hc with ⟨hc, rfl⟩ | ⟨hc, rfl⟩ | ⟨hc, rfl⟩
      all_goals
        simp only [Sys.setCall, update_self, Call.deadline?] at hd
        simp [after, Sys.setCall, hc, i.waiting t deadline (by simp [hc, Call.deadline?, hd])]
    | ticked | handled | dma => cases ht
    | _ =>
      cases ht
      simp [Sys.setCall, Call.deadline?] at hd
  · obtain ⟨hdue, he⟩ := m.after_of_ne sys ht
    rw [ch.calls_of_ne ht] at hd
    rw [hdue, he]
    exact i.waiting t deadline hd

theorem Inv.finishing_after {free' : List Nat} (i' : Block.Inv sys free' chains') {r : Request}
    {st : UInt8} (hf : sys.calls t = .finish r h st) :
    ((m.after a sys).expiry t = none ∧ ∃ c, m.note sys h = some c ∧ c.status = st) ∨
      ∃ tick recorded, (m.after a sys).expiry t = some (tick, recorded) ∧ st = statusTimedOut ∧
        (m.after a sys).due t ≤ tick ∧ tick ≤ sys.ticks ∧
        (recorded = false → ∀ c, m.note sys h = some c → tick ≤ c.tick) := by
  obtain ⟨sl', hsl', -⟩ := i'.held.owner t h (by rw [hf]; rfl)
  have hk : ∀ c, m.noted h = some c → m.note sys h = some c :=
    fun c hc => i.note_kept ch hc hsl'
  by_cases ht : a.thread? = some t
  · cases ch with
    | @polled _ h' deadline _ sl hca hsl hdo =>
      cases ht
      simp only [Sys.setCall, update_self] at hf
      obtain ⟨rfl, rfl, rfl⟩ := hf
      have hw := i.waiting t deadline (by simp [hca, Call.deadline?])
      obtain ⟨c, hc, hst⟩ := i.noted_of_slot hsl hdo
      refine .inl ⟨?_, c, hk c hc, hst⟩
      simp [after, hca, hw]
    | @expired _ h' deadline _ hca hl =>
      cases ht
      simp only [Sys.setCall, update_self, Call.finish.injEq] at hf
      obtain ⟨rfl, rfl, rfl⟩ := hf
      obtain ⟨hdue, -⟩ := i.waiting t deadline (by simp [hca, Call.deadline?])
      refine .inr ⟨m.sys.ticks, (m.noted h').isSome, by simp [after, Sys.setCall, hca], rfl, ?_,
        le_rfl, fun hrec c hc => ?_⟩
      · simpa [after, Sys.setCall, hca, hdue] using hl
      · rcases note_eq_some hc with hc | hc
        · simp [hc] at hrec
        · exact hc ▸ le_rfl
    | waited hca =>
      cases ht
      rcases hca with ⟨-, rfl⟩ | ⟨-, rfl⟩ | ⟨-, rfl⟩ <;> simp [Sys.setCall] at hf
    | ticked | handled | dma => cases ht
    | _ =>
      cases ht
      simp [Sys.setCall] at hf
  · obtain ⟨hdue, hex⟩ := m.after_of_ne sys ht
    have hti : m.sys.ticks ≤ sys.ticks := ch.ticks_le
    rw [ch.calls_of_ne ht] at hf
    rw [hdue, hex]
    rcases i.finishing t r h st hf with ⟨hn, c, hc, hst⟩ | ⟨tick, recorded, he, hst, hd, hle, hl⟩
    · exact .inl ⟨hn, c, hk c hc, hst⟩
    · refine .inr ⟨tick, recorded, he, hst, hd, hle.trans hti, fun hrec c hc => ?_⟩
      rcases note_eq_some hc with hc | hc
      · exact hl hrec c hc
      · exact hc ▸ hle

end

theorem Inv.step (h : Step m a m') : Inv m' := by
  obtain ⟨sys, hs, rfl⟩ := Option.map_eq_some_iff.mp h
  obtain ⟨free, chains, i₀⟩ := i.driver
  obtain ⟨free', chains', ch, i₁⟩ := i₀.step hs
  constructor
  · rw [sys_after]
    exact ⟨free', chains', i₁⟩
  · rw [sys_after, ch.panicked_eq]
    exact i.running
  · rw [sys_after, noted_after]
    exact i.noted_note ch
  · rw [sys_after]
    exact fun t deadline hd => i.waiting_after ch hd
  · rw [sys_after, noted_after]
    exact fun t r h st hf => i.finishing_after ch i₁ hf

end Step

theorem Inv.boot (metaPhys dataPhys : Nat) (bounce : Nat → Bytes) :
    Inv (.boot metaPhys dataPhys bounce) where
  driver := ⟨_, _, .boot metaPhys dataPhys bounce⟩
  running := rfl
  noted := fun _ => rfl
  waiting := nofun
  finishing := nofun

theorem Inv.truthful_iff (i : Inv m) {r : Request} {st : UInt8} {result : Except BlockError Unit}
    {copied : Option Bytes} (hca : m.sys.calls t = .finish r h st)
    (hf : Finished m.sys.blk h st r.into result copied) :
    m.Truthful t h result ↔ m.Unconfused t r h := by
  rcases i.finishing t r h st hca with ⟨hn, c, hc, rfl⟩ | ⟨tick, recorded, he, rfl, hd, -, hla⟩
  · -- `poll_device` found the completion.
    obtain ⟨sl, hsl, -, -, hlen⟩ := i.slot_of_noted hc
    have hr : m.sys.blk.reported h = c.len := by
      simp [Blk.reported, hsl, hlen]
    simp only [Truthful, Unconfused, hn, hc, Option.some.injEq, forall_eq']
    cases hf with
    | timeout hst => simp [hst]
    | short hst hi hs =>
      obtain ⟨hout, rfl⟩ := Request.into_eq_some.mp hi
      rw [hr] at hs
      simp [hst, hout, Nat.not_le.mpr hs]
    | told hst hl =>
      have ht : c.status ≠ 0 → answerOf c.status = .error (.device (statusFromByte c.status)) :=
        answerOf_of_ne_zero
      have hw : r.out = none → r.len ≤ c.len :=
        fun hout => hr ▸ hl r.len (Request.into_eq_some.mpr ⟨hout, rfl⟩)
      simp only [answerOf_ne_timeout, false_imp_iff, and_true]
      exact iff_of_true (fun _ => ht) ⟨by simp, fun _ => ⟨hst, fun _ _ => hw⟩⟩
  · -- The deadline was found to have passed.
    simp only [Truthful, Unconfused, he]
    cases hf with
    | timeout =>
      cases recorded with
      | true => simp
      | false =>
        refine iff_of_true ⟨fun c hc hti => ?_, fun _ => ⟨tick, hd, rfl⟩⟩ (by simp)
        have := hla rfl c hc
        omega
    | short hst | told hst => exact absurd rfl hst

/-- In every run, over any device: a poll that finds the completion of its request
ends with the byte recorded for it; and the answer with which a call returns is the
device's exactly when the deadline was not found to have passed after the completion
was recorded, the byte polled is not the driver's own for a timeout, and a read that
failed before its deadline has its whole length. -/
theorem verdict_is_the_devices_iff {metaPhys dataPhys : Nat} {bounce : Nat → Bytes}
    {as : List Act} (hrun : Run Step (.boot metaPhys dataPhys bounce) as m) (t : Nat) (r : Request)
    (head : Nat) :
    (∀ deadline c, m.sys.calls t = .poll r head deadline → m.noted head = some c →
      ∃ m', Step m (.advance t) m' ∧ m'.sys.calls t = .finish r head c.status) ∧
    (∀ st, m.sys.calls t = .finish r head st →
      ∃ m' result copied, Step m (.advance t) m' ∧ m'.sys.calls t = .done result copied ∧
        (m.Truthful t head result ↔ m.Unconfused t r head)) := by
  have i : Inv m := hrun.invariant (fun _ _ _ i h => i.step h) (.boot metaPhys dataPhys bounce)
  obtain ⟨free, chains, i₀⟩ := i.driver
  constructor
  · intro deadline c hcall hc
    obtain ⟨sl, hsl, hdone, hstatus, -⟩ := i.slot_of_noted hc
    refine ⟨m.after (.advance t) (m.sys.setCall t (.finish r head c.status)), ?_, ?_⟩
    · have hstep : m.sys.step (.advance t) = some (m.sys.setCall t (.finish r head c.status)) := by
        simp [Sys.step, i.running, Sys.advance, hcall, Sys.pollDevice, Blk.pollDevice, hsl, hdone,
          hstatus]
      exact congrArg (Option.map _) hstep
    · rw [sys_after]
      exact update_self ..
  · intro st hcall
    obtain ⟨s', result, copied, hstep, hdone, hf⟩ := i₀.finish_step i.running hcall
    refine ⟨m.after (.advance t) s', result, copied, congrArg (Option.map _) hstep, ?_, ?_⟩
    · rw [sys_after, hdone]
    · exact i.truthful_iff hcall hf

end Timed

/-! ### Single runs -/

/-- The call is about to give back its chain, with this status. -/
def Call.finishes (r : Request) (head : Nat) (status : UInt8) : Call → Bool
  | .finish r' head' status' => decide (r' = r ∧ head' = head ∧ status' = status)
  | _ => false

theorem Call.eq_finish {c : Call} {head : Nat} (h : c.finishes r head b = true) :
    c = .finish r head b := by
  cases c <;> simp_all [finishes]

/-- The error a call returned. -/
def Call.error? : Call → Option BlockError
  | .done (.error e) _ => some e
  | _ => none

def Request.writeSector : Request := { lba := 0, len := 512, out := some (List.replicate 512 1) }

namespace Timed

/-- The error with which the call of thread 0 returns at its next step. -/
def nextError (m : Timed) : Option BlockError :=
  (m.step (.advance 0)).bind fun m' => (m'.sys.calls 0).error?

/-- One request that the device completes with a status byte. -/
def completed (r : Request) (b : UInt8) : List Act :=
  [.call 0 r, .reserve 0 true, .advance 0, .interrupt (.one 1 0 b), .advance 0]

/-- A write that the device fails. -/
theorem verdict_is_the_devices_failed_write :
    ∃ m, Run Step (.boot 0 0 fun _ => []) (completed .writeSector 1) m ∧
      ∃ m' copied, Step m (.advance 0) m' ∧
        m'.sys.calls 0 = .done (.error (.device .ioError)) copied := by
  refine exists_run_of_exec
    (p := fun m => (m.sys.calls 0).finishes .writeSector 0 1 = true ∧
      m.noted 0 = some ⟨0, 1, 0⟩ ∧ m.due 0 = 500 ∧ m.expiry 0 = none)
    (by decide +kernel) fun m hrun hend => ?_
  obtain ⟨hcall, hnoted, hdue, hexpiry⟩ := hend
  obtain ⟨m', result, copied, hstep, hdone, hiff⟩ :=
    (verdict_is_the_devices_iff hrun 0 .writeSector 0).2 1 (Call.eq_finish hcall)
  have htrue : m.Truthful 0 0 result := by
    refine hiff.mpr ⟨by simp [hexpiry], fun _ c hc' => ?_⟩
    cases hnoted.symm.trans hc'
    exact ⟨by decide, fun _ _ hout => by cases hout⟩
  have hresult := htrue.1 _ hnoted (by rw [hdue]; decide) (by decide)
  exact ⟨m', copied, hstep, hdone.trans (by rw [hresult]; rfl)⟩

/-- Completions in time that are not the answer. A write whose status byte is 0xfe and
a read that failed with byte 1 and no data return other errors; and a read whose
completion is recorded just before its deadline is polled has timed out. -/
theorem verdict_not_the_devices :
    (∃ m, Run Step (.boot 0 0 fun _ => []) (completed .writeSector 0xfe) m ∧
      m.noted 0 = some ⟨0, 0xfe, 0⟩ ∧ m.due 0 = 500 ∧ m.nextError = some .timeout) ∧
    (∃ m, Run Step (.boot 0 0 fun _ => []) (completed .readSector 1) m ∧
      m.noted 0 = some ⟨0, 1, 0⟩ ∧ m.due 0 = 500 ∧ m.nextError = some .short) ∧
    (∃ m, Run Step (.boot 0 0 fun _ => [])
      ([.call 0 .writeSector, .reserve 0 true, .advance 0, .advance 0] ++
        List.replicate 499 .tick ++
        [.interrupt (.one 1 0 1), .tick, .advance 0]) m ∧
      m.noted 0 = some ⟨499, 1, 0⟩ ∧ m.due 0 = 500 ∧ m.nextError = some .timeout) := by
  refine ⟨?_, ?_, ?_⟩
  all_goals exact exists_run_of_exec (by decide +kernel) fun _ _ hend => hend

end Timed

end Qunix.Block
