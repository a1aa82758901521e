/-
Stale bytes in a read (`finish` in `kernel/src/block.rs`, `transfer_satisfied` in
`crates/qunix-virtio/src/blk.rs`).

An honest device writes the first bytes of the data buffer and then the status byte,
and reports the number of bytes it wrote. The status byte is one of them, and
`finish` compares the number with the length of the data alone. So a read to which
the device wrote one byte less than was asked succeeds, and its last byte is what
the bounce buffer held before; every other read that succeeds is the device's.
-/

import Qunix.Block.UsedRing
import Qunix.Block.Verdicts

namespace Qunix.Block

open Function Qunix.Virtio Qunix.Lib
open Qunix.BufferCache (Bytes BlkStatus BlockError)

/-- A request that a call has after a step is one it had, or is published by the
step. -/
theorem Change.sent_cases {s s' : Sys} {a : Act} {chains chains' : List (List Nat)} {t h : Nat}
    {r : Request} (c : Change s chains a s' chains') (hs : (s'.calls t).sent? = some (r, h)) :
    (s.calls t).sent? = some (r, h) ∨ s.published a s' = some (t, h) := by
  by_cases ht : a.thread? = some t
  · cases c with
    | submitted hc =>
      cases ht
      simp only [Sys.setCall, update_self] at hs
      obtain ⟨rfl, rfl⟩ := hs
      exact .inr (by simp [Sys.published, Sys.setCall, hc])
    | waited hc =>
      cases ht
      rcases hc with ⟨hc, rfl⟩ | ⟨hc, rfl⟩ | ⟨hc, rfl⟩
      all_goals
        simp only [Sys.setCall, update_self] at hs
        exact .inl (by rw [hc]; exact hs)
    | polled hc | expired hc =>
      cases ht
      simp only [Sys.setCall, update_self] at hs
      exact .inl (by rw [hc]; exact hs)
    | ticked | handled | dma => cases ht
    | _ =>
      cases ht
      simp [Sys.setCall, Call.sent?] at hs
  · rw [c.calls_of_ne ht] at hs
    exact .inl hs

namespace Machine

variable {m m' : Machine}

/-- The device writes no more data than was asked, then the status byte, and reports
the number of bytes it wrote. -/
def honest (m : Machine) : MachineAct → Bool
  | .complete e =>
    decide (e.len = e.bytes.length + 1 ∧
      ∀ p ∈ (m.sys.calls (m.thread e.head)).sent?, p.2 = e.head → e.bytes.length ≤ p.1.len)
  | _ => true

/-- What was written for the requests of the calls. -/
structure Served (m : Machine) : Prop where
  owner : ∀ t r h, (m.sys.calls t).sent? = some (r, h) → m.thread h = t
  honest : ∀ t r h e, (m.sys.calls t).sent? = some (r, h) → m.served h = some e →
    e.len = e.bytes.length + 1 ∧ e.bytes.length ≤ r.len

theorem Served.driver_step (v : Served m) (i : Inv m) {a : Act}
    (h : m.driver a = some m') : Served m' := by
  obtain ⟨sys, hst, rfl⟩ := Option.map_eq_some_iff.mp h
  obtain ⟨free, chains, i₀⟩ := i.driver
  obtain ⟨free', chains', c, i₁⟩ := i₀.step hst
  cases hp : m.sys.published a sys with
  | none =>
    have hse : ∀ t r h, (sys.calls t).sent? = some (r, h) →
        (m.sys.calls t).sent? = some (r, h) := by
      intro t r h hs
      rcases c.sent_cases hs with hs | hpub
      · exact hs
      · rw [hp] at hpub
        cases hpub
    exact ⟨fun t r h hs => v.owner t r h (hse t r h hs),
      fun t r h e hs => v.honest t r h e (hse t r h hs)⟩
  | some p =>
    obtain ⟨u, head⟩ := p
    obtain ⟨hf, -⟩ := c.slot_of_published hp
    have hse : ∀ t r h, (sys.calls t).sent? = some (r, h) →
        (t = u ∧ h = head) ∨ h ≠ head ∧ (m.sys.calls t).sent? = some (r, h) := by
      intro t r h hs
      rcases c.sent_cases hs with hs | hpub
      · refine .inr ⟨fun heq => ?_, hs⟩
        obtain ⟨sl, hsl, -⟩ := i₀.held.owner t h (Call.head?_of_sent? hs)
        rw [heq, hf] at hsl
        cases hsl
      · rw [hp] at hpub
        cases hpub
        exact .inl ⟨rfl, rfl⟩
    constructor
    · intro t r h hs
      rcases hse t r h hs with ⟨rfl, rfl⟩ | ⟨hne, hs⟩
      · exact update_self ..
      · exact (update_of_ne hne ..).trans (v.owner t r h hs)
    · intro t r h e hs he
      rcases hse t r h hs with ⟨rfl, rfl⟩ | ⟨hne, hs⟩
      · cases (update_self h none m.served).symm.trans he
      · exact v.honest t r h e hs ((update_of_ne hne none m.served).symm.trans he)

theorem Served.step (v : Served m) (i : Inv m) {a : MachineAct} (hhonest : m.honest a = true)
    (h : Step m a m') : Served m' := by
  cases a with
  | driver a =>
    obtain ⟨-, hdriver⟩ := Option.ite_none_right_eq_some.mp h
    exact v.driver_step i hdriver
  | complete e =>
    obtain ⟨-, heq⟩ := Option.ite_none_right_eq_some.mp h
    cases heq
    obtain ⟨hlen, ha⟩ := of_decide_eq_true hhonest
    refine ⟨v.owner, fun t r h e' hs he' => ?_⟩
    change update m.served e.head (some e) h = some e' at he'
    rcases eq_or_ne h e.head with rfl | hh
    · rw [update_self] at he'
      cases he'
      refine ⟨hlen, ha (r, e.head) ?_ rfl⟩
      rw [v.owner t r e.head hs]
      exact hs
    · rw [update_of_ne hh] at he'
      exact v.honest t r h e' hs he'
  | handle late =>
    obtain ⟨-, hmap⟩ := Option.ite_none_right_eq_some.mp (show m.handle late = some m' from h)
    obtain ⟨sys, hstep, rfl⟩ := Option.map_eq_some_iff.mp hmap
    obtain ⟨free, chains, i₀⟩ := i.driver
    obtain ⟨free', chains', c, -⟩ := i₀.step hstep
    have hcalls : sys.calls = m.sys.calls := by
      cases c
      rfl
    exact ⟨hcalls ▸ v.owner, hcalls ▸ v.honest⟩

/-- A read that is answered as asked was written as a whole, and the caller gets what
the device wrote. -/
def Fresh (m : Machine) (r : Request) (head : Nat) (result : Except BlockError Unit)
    (copied : Option Bytes) : Prop :=
  result = .ok () → ∃ e, m.served head = some e ∧ e.bytes.length = r.len ∧ copied = some e.bytes

/-- The device said that it succeeded, one byte short. -/
def OneShort (m : Machine) (r : Request) (head : Nat) (status : UInt8) : Prop :=
  status = 0 ∧ ∃ e, m.served head = some e ∧ e.bytes.length + 1 = r.len

theorem Inv.fresh_iff (i : Inv m) (v : Served m) {t head : Nat} {r : Request} {st : UInt8}
    {result : Except BlockError Unit} {copied : Option Bytes}
    (hc : m.sys.calls t = .finish r head st) (hread : r.out = none)
    (hf : Finished m.sys.blk head st r.into result copied) :
    m.Fresh r head result copied ↔ ¬ m.OneShort r head st := by
  have hi : r.into = some r.len := Request.into_eq_some.mpr ⟨hread, rfl⟩
  -- What was recorded for a completion that `poll_device` found.
  have hre : st ≠ statusTimedOut → ∃ e, m.served head = some e ∧
      m.sys.blk.reported head = e.bytes.length + 1 ∧ e.bytes.length ≤ r.len ∧
      (m.sys.blk.bounce head).take e.bytes.length = e.bytes := by
    intro hst
    obtain ⟨free, chains, i₀⟩ := i.driver
    obtain ⟨sl, hsl, hd, -⟩ := i₀.held.verdict t r head st hc hst
    obtain ⟨e, he, -, hlen, hb⟩ := i.done head sl hsl hd
    obtain ⟨hco, hle⟩ := v.honest t r head e (by rw [hc]; rfl) he
    exact ⟨e, he, by simp [Blk.reported, hsl, hlen, hco], hle, hb⟩
  cases hf with
  | timeout hst =>
    refine iff_of_true (by simp [Fresh]) fun hs => ?_
    rw [hs.1] at hst
    exact absurd hst (by decide)
  | short hst hlen hlt =>
    obtain ⟨e, he, hr, -, -⟩ := hre hst
    refine iff_of_true (by simp [Fresh]) ?_
    rintro ⟨-, e', he', hone⟩
    cases he.symm.trans he'
    rw [hi] at hlen
    cases hlen
    omega
  | told hst hl =>
    obtain ⟨e, he, hr, hle, hb⟩ := hre hst
    have hl := hl r.len hi
    constructor
    · rintro hfr ⟨hz, e', he', hone⟩
      obtain ⟨e'', he'', hw, -⟩ := hfr (answerOf_eq_ok.mpr hz)
      cases he.symm.trans he'
      cases he.symm.trans he''
      omega
    · intro hs hok
      have hw : e.bytes.length = r.len := by
        by_contra hne
        exact hs ⟨answerOf_eq_ok.mp hok, e, he, by omega⟩
      refine ⟨e, he, hw, ?_⟩
      rw [hi, Option.map_some, ← hw, hb]

/-- Over an honest device, a read returns, and a successful answer is all of what the
device wrote for it, exactly when the device did not report success one byte short
of what was asked. -/
theorem read_fresh_iff {metaPhys dataPhys : Nat} {bounce : Nat → Bytes}
    {used : Nat → Fin 8 → UInt8} {status : Nat → UInt8} {as : List MachineAct} {t head : Nat}
    {r : Request} {st : UInt8}
    (hrun : Run (fun m a m' => Step m a m' ∧ m.honest a = true)
      (.boot metaPhys dataPhys bounce used status) as m)
    (hcall : m.sys.calls t = .finish r head st) (hread : r.out = none) :
    ∃ m' result copied, Step m (.driver (.advance t)) m' ∧ m'.sys.calls t = .done result copied ∧
      (m.Fresh r head result copied ↔ ¬ m.OneShort r head st) := by
  obtain ⟨i, v⟩ : Inv m ∧ Served m := by
    refine hrun.invariant (p := fun m => Inv m ∧ Served m) ?_
      ⟨.boot metaPhys dataPhys bounce used status, nofun, nofun⟩
    rintro p a q ⟨i, v⟩ ⟨hst, hhonest⟩
    exact ⟨i.step hst, v.step i hhonest hst⟩
  obtain ⟨free, chains, i₀⟩ := i.driver
  obtain ⟨s', result, copied, hstep, hdone, hf⟩ := i₀.finish_step i.running hcall
  have hnone : m.sys.published (.advance t) s' = none := by
    simp [Sys.published, hcall]
  refine ⟨{ m with sys := s' }, result, copied, ?_, hdone, i.fresh_iff v hcall hread hf⟩
  simp [Step, step, Act.software, driver, hstep, hnone]

/-- A read of one sector to which the device writes some bytes. -/
def readOf (bytes : Bytes) : List MachineAct :=
  [.driver (.call 0 .readSector), .driver (.reserve 0 true), .driver (.advance 0),
    .complete ⟨0, bytes, 0, bytes.length + 1⟩, .handle 0, .driver (.advance 0)]

theorem read_fresh_whole_sector :
    ∃ m, Run (fun m a m' => Step m a m' ∧ m.honest a = true)
        (.boot 0 0 (fun _ => []) (fun _ _ => 0) fun _ => 0) (readOf (List.replicate 512 7)) m ∧
      ∃ m' result copied, Step m (.driver (.advance 0)) m' ∧ m'.sys.calls 0 = .done result copied ∧
        m.Fresh .readSector 0 result copied := by
  refine exists_run_of_exec_guarded
    (p := fun m => (m.sys.calls 0).finishes .readSector 0 0 = true ∧
      m.served 0 = some ⟨0, List.replicate 512 7, 0, 513⟩)
    (by decide +kernel) fun m hrun hend => ?_
  obtain ⟨hcall, hserved⟩ := hend
  obtain ⟨m', result, copied, hstep, hdone, hiff⟩ :=
    read_fresh_iff hrun (Call.eq_finish hcall) rfl
  refine ⟨m', result, copied, hstep, hdone, hiff.mpr ?_⟩
  rintro ⟨-, e, he, hone⟩
  cases hserved.symm.trans he
  rw [List.length_replicate] at hone
  exact absurd hone (by decide)

/-- The bytes of a read that succeeded. -/
def bytesRead (m : Machine) (t : Nat) : Option Bytes :=
  match m.sys.calls t with
  | .done (.ok ()) copied => copied
  | _ => none

/-- The device writes 511 of 512 bytes and says so. The read succeeds, and its last
byte is the one that the bounce buffer held before. -/
theorem stale_byte_read :
    ∃ m, Run (fun m a m' => Step m a m' ∧ m.honest a = true)
        (.boot 0 0 (fun _ => List.replicate 512 9) (fun _ _ => 0) fun _ => 0)
        (readOf (List.replicate 511 7) ++ [.driver (.advance 0)]) m ∧
      m.served 0 = some ⟨0, List.replicate 511 7, 0, 512⟩ ∧
      m.bytesRead 0 = some (List.replicate 511 7 ++ [9]) :=
  exists_run_of_exec_guarded (by decide +kernel) fun _ _ hend => hend

end Machine

end Qunix.Block
