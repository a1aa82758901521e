/-
How much one `sync` writes.

The loop of `sync` reads the mask of unsynced slots again in every round, so a
slot it has written back is written back again when a write has gone into it in
between (`sync_writes_twice`). As long as no write goes into a slot that a `sync`
in progress has written back, that slot stays clean, and each `sync` finishes at
most one successful writeback for a slot of its mask (`sync_writes_once`).
-/

import Qunix.BufferCache.Safety
import Qunix.BufferCache.Syncing

namespace Qunix.BufferCache

open Function Qunix.Lib

variable {N : Nat}

/-- The event is a successful writeback of slot `i` by the `sync` of thread `t`. -/
def Event.isWroteBack (t : Nat) (i : Fin N) : Event N → Bool
  | .wroteBack u j => u == t && j == i
  | _ => false

theorem Event.isWroteBack_iff {t : Nat} {i : Fin N} {e : Event N} :
    e.isWroteBack t i = true ↔ e = .wroteBack t i := by
  cases e <;> simp [Event.isWroteBack]

/-- The slots that the latest `sync` of thread `t` has written back. -/
def writtenBack (t : Nat) : List (Event N) → List (Fin N)
  | [] => []
  | .owed u _ :: log => if u = t then [] else writtenBack t log
  | .wroteBack u i :: log => if u = t then i :: writtenBack t log else writtenBack t log
  | _ :: log => writtenBack t log

/-- No write goes into a slot that a `sync` in progress has written back. -/
def sparesWritten (p : Sys N × List (Event N)) (a : Act N) : Bool :=
  match p.1.storesInto a with
  | none => true
  | some i =>
    p.2.all fun e =>
      match e with
      | .wroteBack t _ => (p.1.tasks t).call.isNone || !(writtenBack t p.2).contains i
      | _ => true

section Log

variable {t : Nat} {i : Fin N} {mask : Fin N → Bool} {later log : List (Event N)}

theorem mem_of_mem_writtenBack (h : i ∈ writtenBack t log) : .wroteBack t i ∈ log := by
  induction log with
  | nil => cases h
  | cons e log ih =>
    cases e with
    | owed u m =>
      simp only [writtenBack] at h
      split at h
      · cases h
      · exact List.mem_cons_of_mem _ (ih h)
    | wroteBack u j =>
      simp only [writtenBack] at h
      split_ifs at h with hu
      · rcases List.mem_cons.mp h with rfl | h
        · rw [hu]
          exact List.mem_cons_self
        · exact List.mem_cons_of_mem _ (ih h)
      · exact List.mem_cons_of_mem _ (ih h)
    | _ => exact List.mem_cons_of_mem _ (ih h)

/-- What a `sync` has written back since it computed its mask. -/
theorem mem_writtenBack (hs : Since (.owed t mask) later log) (hla : ∀ m, .owed t m ∉ later)
    (h : .wroteBack t i ∈ later) : i ∈ writtenBack t log := by
  obtain ⟨before, rfl⟩ := hs
  induction later with
  | nil => cases h
  | cons e later ih =>
    have ih := ih (fun m hm => hla m (List.mem_cons_of_mem _ hm))
    rcases List.mem_cons.mp h with rfl | hl
    · simp [writtenBack]
    · cases e with
      | owed u m =>
        have hu : u ≠ t := by
          rintro rfl
          exact hla m List.mem_cons_self
        simpa [writtenBack, hu] using ih hl
      | wroteBack u j =>
        simp only [List.cons_append, writtenBack]
        split
        · exact List.mem_cons_of_mem _ (ih hl)
        · exact ih hl
      | _ => exact ih hl

theorem not_mem_writtenBack {s : Sys N} {a : Act N} (h : sparesWritten (s, log) a = true)
    (hi : s.storesInto a = some i) (hc : (s.tasks t).call ≠ none) : i ∉ writtenBack t log := by
  intro hmem
  simp only [sparesWritten, hi, List.all_eq_true] at h
  have := h _ (mem_of_mem_writtenBack hmem)
  simp_all

end Log

/-! ### Steps -/

section Steps

variable {s s' : Sys N} {a : Act N} {t : Nat} {i : Fin N} {mask : Fin N → Bool}

theorem Inv.dirty_of_wroteBack (h : Inv s) (hs : s.step a = some s')
    (he : s.event a s' = some (.wroteBack t i)) :
    (∃ k, s.Dirty i k) ∧ ∀ k, ¬ s'.Dirty i k := by
  cases Sys.shows_of_event he with
  | @wroteBack _ y w _ ht =>
    obtain ⟨b, hc⟩ := h.holds (congrArg Task.hold ht)
    have hco := h.ready b hc
    obtain ⟨hio, hl, -⟩ := hco.guards.slot_of_hold (congrArg Task.hold ht)
    refine ⟨⟨w.key, b, _, hc, hl⟩, fun k hd => ?_⟩
    obtain ⟨b', hfin⟩ := hco.finishWriteback_ok hio true
    have hs := Sys.advance_of_step hs
    simp only [Sys.advance, ht, Sys.finishWriteback, hc, Except.toBool, hfin, Sys.wroteBack,
      Option.some.injEq] at hs
    subst hs
    obtain ⟨x, hl'⟩ := (Sys.dirty_iff rfl).mp hd
    have hb := Bcache.finishWriteback_eq_ok (hco.sound w.token.slot).quiet hfin
    rw [hb.line_self] at hl'
    simp [lineOf] at hl'

end Steps

/-! ### One writeback for a slot -/

/-- What holds along runs in which no write goes into a slot that a `sync` in
progress has written back. -/
structure Sparing (s : Sys N) (log : List (Event N)) : Prop where
  inv : Inv s
  calls : ∀ t y o, (s.tasks t).call = some (y, o) → y.Owing o
  mask : ∀ t y o, (s.tasks t).call = some (y, o) → ∀ mask later,
    Since (.owed t mask) later log → (∀ m, .owed t m ∉ later) → mask = y.owed
  clean : ∀ t, (s.tasks t).call ≠ none → ∀ mask later, Since (.owed t mask) later log →
    (∀ m, .owed t m ∉ later) → ∀ i, .wroteBack t i ∈ later → ∀ k, ¬ s.Dirty i k
  once : ∀ t mask later, Since (.owed t mask) later log → (∀ m, .owed t m ∉ later) → ∀ i,
    later.countP (·.isWroteBack t i) ≤ if mask i then 1 else 0

namespace Sparing

variable {s s' : Sys N} {a : Act N} {log later : List (Event N)} {t : Nat} {i : Fin N}
  {mask : Fin N → Bool}

theorem boot (device : Nat → Bytes) : Sparing (Sys.boot N device) [] where
  inv := Inv.boot device
  calls _ _ _ hc := nomatch hc
  mask _ _ _ hc := nomatch hc
  clean _ hc := absurd rfl hc
  once _ _ _ hs := absurd hs not_since_nil

variable {y : SyncCall N} {o : Option (Fin N)}

/-- A `sync` that did not compute its mask in this step had it before. -/
theorem call_before (hs : s.step a = some s') (hc : (s'.tasks t).call = some (y, o))
    (hnot : ∀ m, s.event a s' ≠ some (.owed t m)) :
    ∃ y₀ o₀, (s.tasks t).call = some (y₀, o₀) ∧ (y₀.Owing o₀ → y.owed = y₀.owed) := by
  rcases Sys.call_step hs hc with ⟨y₀, o₀, hcall₀, hk⟩ | ⟨rfl, ht, b, -, hr, -⟩
  · exact ⟨y₀, o₀, hcall₀, fun h => (hk h).1⟩
  · exact absurd (by simp [Sys.event, ht, hr]) (hnot y.owed)

/-- A `sync` that has its mask has just computed it, or it did so before and has
not done so since. -/
theorem since_cases (hs : Since (.owed t mask) later ((s.event a s').toList ++ log))
    (hl : ∀ m, .owed t m ∉ later) :
    (later = [] ∧ s.event a s' = some (.owed t mask)) ∨
      ∃ l, later = (s.event a s').toList ++ l ∧ Since (.owed t mask) l log ∧
        (∀ m, .owed t m ∉ l) ∧ ∀ m, s.event a s' ≠ some (.owed t m) := by
  rcases since_toList_append.mp hs with ⟨rfl, he⟩ | ⟨l, rfl, hp⟩
  · exact .inl ⟨rfl, he⟩
  · refine .inr ⟨l, rfl, hp, fun m hm => hl m (List.mem_append_right _ hm), ?_⟩
    intro m he
    exact hl m (by simp [he])

variable (h : Sparing s log)

include h

variable (hs : s.step a = some s')

include hs

theorem mask_step (hc : (s'.tasks t).call = some (y, o))
    (hsi : Since (.owed t mask) later ((s.event a s').toList ++ log)) (hl : ∀ m, .owed t m ∉ later)
    : mask = y.owed := by
  rcases since_cases hsi hl with ⟨rfl, he⟩ | ⟨l, rfl, hp, hl', hnot⟩
  · cases Sys.shows_of_event he with
    | owed _ hr =>
      rw [hr] at hc
      obtain ⟨rfl, -⟩ := Prod.mk.inj (Option.some.inj hc)
      rfl
  · obtain ⟨y₀, o₀, hcall₀, hk⟩ := call_before hs hc hnot
    rw [hk (h.calls t y₀ o₀ hcall₀)]
    exact h.mask t y₀ o₀ hcall₀ mask l hp hl'

theorem clean_step (hsp : sparesWritten (s, log) a = true) (hc : (s'.tasks t).call ≠ none)
    (hsi : Since (.owed t mask) later ((s.event a s').toList ++ log)) (hl : ∀ m, .owed t m ∉ later)
    (hmem : .wroteBack t i ∈ later) (k : BlockKey) :
    ¬ s'.Dirty i k := by
  rcases since_cases hsi hl with ⟨rfl, -⟩ | ⟨l, rfl, hp, hl', hnot⟩
  · cases hmem
  · rcases List.mem_append.mp hmem with hnow | hmem
    · exact (h.inv.dirty_of_wroteBack hs (by simpa using hnow)).2 k
    · intro hd
      obtain ⟨⟨y, o⟩, hc⟩ := Option.ne_none_iff_exists'.mp hc
      obtain ⟨y₀, o₀, hcall₀, -⟩ := call_before hs hc hnot
      have hb : (s.tasks t).call ≠ none := by simp [hcall₀]
      rcases h.inv.dirty_new hs hd with hd | ⟨hi, -⟩
      · exact h.clean t hb mask l hp hl' i hmem k hd
      · exact not_mem_writtenBack hsp hi hb (mem_writtenBack hp hl' hmem)

theorem once_step (hsi : Since (.owed t mask) later ((s.event a s').toList ++ log))
    (hl : ∀ m, .owed t m ∉ later) (i : Fin N) :
    later.countP (·.isWroteBack t i) ≤ if mask i then 1 else 0 := by
  rcases since_toList_append.mp hsi with ⟨rfl, -⟩ | ⟨l, rfl, hp⟩
  · simp
  · have hl' : ∀ m, .owed t m ∉ l := fun m hm => hl m (List.mem_append_right _ hm)
    by_cases hnow : s.event a s' = some (.wroteBack t i)
    · -- The slot was dirty, so it is none of those written back already.
      obtain ⟨k, hd⟩ := (h.inv.dirty_of_wroteBack hs hnow).1
      cases Sys.shows_of_event hnow with
      | @wroteBack _ y w _ ht =>
        have hc : (s.tasks t).call = some (y, some w.token.slot) := congrArg Task.call ht
        have hn : l.countP (·.isWroteBack t w.token.slot) = 0 := by
          refine List.countP_eq_zero.mpr fun e he hyes => ?_
          obtain rfl := Event.isWroteBack_iff.mp hyes
          exact h.clean t (by simp [hc]) mask l hp hl' _ he k hd
        have ho : mask w.token.slot = true := by
          rw [h.mask t y _ hc mask l hp hl']
          exact (h.calls t y _ hc).standing _ rfl
        rw [hnow, ho, List.countP_append, hn]
        simp [Event.isWroteBack]
    · have hco : (s.event a s').toList.countP (·.isWroteBack t i) = 0 := by
        refine List.countP_eq_zero.mpr fun e he hyes => hnow ?_
        rw [← Event.isWroteBack_iff.mp hyes]
        simpa using he
      rw [List.countP_append, hco, Nat.zero_add]
      exact h.once t mask l hp hl' i

theorem step (hsp : sparesWritten (s, log) a = true) :
    Sparing s' ((s.event a s').toList ++ log) where
  inv := h.inv.step hs
  calls _ _ _ := Sys.owing_step h.calls hs
  mask _ _ _ hc _ _ := h.mask_step hs hc
  clean _ hc _ _ hsi hl _ := h.clean_step hs hsp hc hsi hl
  once _ _ _ := h.once_step hs

end Sparing

/-- While no write goes into a slot that a `sync` in progress has written back, a
`sync` finishes at most one successful writeback for each slot of its mask, and
none for another slot. -/
theorem sync_writes_once {device : Nat → Bytes} {as : List (Act N)} {s : Sys N}
    {log : List (Event N)}
    (hrun : Run (fun p a q => Logged Sys.Step Sys.event p a q ∧ sparesWritten p a = true)
      (Sys.boot N device, []) as (s, log)) :
    ∀ t mask later before, log = later ++ .owed t mask :: before → (∀ m, .owed t m ∉ later) →
      ∀ i, later.countP (·.isWroteBack t i) ≤ if mask i then 1 else 0 := by
  have h : Sparing s log := by
    refine Run.invariant (p := fun p => Sparing p.1 p.2) ?_ hrun (Sparing.boot device)
    rintro ⟨s, log⟩ a ⟨s', log'⟩ h ⟨⟨hs, hlog⟩, hspare⟩
    rw [hlog]
    exact h.step hs hspare
  intro t mask later before hlog hlast
  exact h.once t mask later ⟨before, hlog⟩ hlast

def isOtherBlock : List (Event 2) → Bool
  | [.syncOk 1, .stored _ _, .wroteBack 1 0,
     .wrote _ _, .owed 1 _, .syncBegan 1, .stored _ _] => true
  | _ => false

/-- Another block is written while the `sync` runs. -/
theorem sync_writes_once_other_block :
    ∃ p : Sys 2 × List (Event 2),
      Run (fun p a q => Logged Sys.Step Sys.event p a q ∧ sparesWritten p a = true)
        (Sys.boot 2 fun _ => [0], [])
        [.init fun _ => [], .writeBlock 0 ⟨0, 5⟩ (List.replicate 4096 7), .advance 0, .sync 1,
          .advance 1, .advance 1, .advance 1, .advance 1, .complete 1 (.ok ()) [], .advance 1,
          .writeBlock 2 ⟨0, 9⟩ (List.replicate 4096 8), .advance 2, .advance 1] p ∧
      ∃ mask later before, p.2 = later ++ .owed 1 mask :: before ∧ .wroteBack 1 0 ∈ later ∧
        ∀ i, later.countP (·.isWroteBack 1 i) ≤ if mask i then 1 else 0 := by
  refine exists_run (fun _ _ _ => logged_of_guarded)
    (f := guarded sparesWritten (logging Sys.step Sys.event))
    (p := fun p : Sys 2 × List (Event 2) => isOtherBlock p.2 = true)
    (by decide +kernel) fun p hrun hlast => ?_
  obtain ⟨s, log⟩ := p
  simp only [isOtherBlock] at hlast
  split at hlast
  · refine ⟨_, [_, _, .wroteBack 1 0, _], _, rfl, by simp, ?_⟩
    exact sync_writes_once hrun 1 _ _ _ rfl (by simp)
  · cases hlast

def isTwice : List (Event 1) → Bool
  | [.wroteBack 1 0, .wrote _ _, .stored _ _, .wroteBack 1 0, .wrote _ _, .owed 1 mask,
      .syncBegan 1, .stored _ _] => mask 0
  | _ => false

/-- A writer writes the block again each time it was written back: one `sync`
writes the slot back twice. -/
theorem sync_writes_twice :
    ∃ p : Sys 1 × List (Event 1), Run (Logged Sys.Step Sys.event) (Sys.boot 1 fun _ => [0], [])
      [.init fun _ => [], .writeBlock 0 ⟨0, 5⟩ (List.replicate 4096 7), .advance 0, .sync 1,
        .advance 1, .advance 1, .advance 1, .advance 1, .complete 1 (.ok ()) [], .advance 1,
        .writeBlock 0 ⟨0, 5⟩ (List.replicate 4096 8), .advance 0, .advance 1, .advance 1,
        .advance 1, .complete 1 (.ok ()) [], .advance 1] p ∧
      ∃ mask later before, p.2 = later ++ .owed 1 mask :: before ∧ (∀ m, .owed 1 m ∉ later) ∧
        mask 0 = true ∧ later.countP (·.isWroteBack 1 0) = 2 := by
  refine exists_run (fun _ _ _ => logged_of_logging)
    (p := fun p : Sys 1 × List (Event 1) => isTwice p.2 = true)
    (by decide +kernel) fun p _ hlast => ?_
  obtain ⟨s, log⟩ := p
  simp only [isTwice] at hlast
  split at hlast
  · refine ⟨_, [.wroteBack 1 0, .wrote _ _, .stored _ _, .wroteBack 1 0, .wrote _ _], _, rfl,
      by simp, hlast, by simp [Event.isWroteBack]⟩
  · cases hlast

end Qunix.BufferCache
