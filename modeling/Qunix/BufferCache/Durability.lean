/-
What `sync` promises.

An acknowledged write is covered when a `write_at` of its block has completed
with its bytes, or with bytes written to the block later. A write that is not
covered has its block in a dirty slot, and a `sync` that began after the write
has that slot in its mask (`Durable`). So a `sync` that returns `Ok` leaves no
write uncovered that was acknowledged before it began (`sync_durable`).
-/

import Qunix.BufferCache.Syncing

namespace Qunix.BufferCache

open Function Qunix.Lib

variable {N : Nat}

/-- Among the later events is a completed write of these bytes, or of bytes that
were themselves written later. -/
def Covered (later : List (Event N)) (k : BlockKey) (x : Bytes) : Prop :=
  ∃ bytes, .wrote k bytes ∈ later ∧ (bytes = x ∨ .stored k bytes ∈ later)

theorem Covered.append {later : List (Event N)} {k : BlockKey} {x : Bytes} (h : Covered later k x)
    (l : List (Event N)) : Covered (l ++ later) k x := by
  obtain ⟨bytes, hw, hb⟩ := h
  exact ⟨bytes, List.mem_append_right _ hw, hb.imp_right (List.mem_append_right _)⟩

/-! ### Acknowledged writes -/

section Writes

variable {s s' : Sys N} {a : Act N} {k : BlockKey} {x : Bytes} {b : Bcache N}

/-- A block that is written through its own slot has no guard. -/
theorem Inv.unheld_of_found (h : Inv s) {slot : Fin N} (hca : s.cache = some b)
    (hf : b.table.lookup k = some slot) (hio : (b.table.slots slot).state ≠ .inFlight) (u : Nat)
    (g : Hold N) (hg : (s.tasks u).hold = some g) : g.key ≠ k := by
  rintro rfl
  have hco := h.ready b hca
  obtain ⟨hs, hfi⟩ := hco.guards.held u g hg
  have hsl : g.slot = slot :=
    hco.lines.unique _ _ _ hfi.key? (key?_line_eq_some.mpr (Cache.lookup_eq_some hf))
  exact hio (hsl ▸ hs)

theorem Inv.unheld_of_absent (h : Inv s) {b₁ : Bcache N} (hca : s.cache = some b)
    (hf : b.Freed b₁) (ha : b₁.table.lookup k = none) (u : Nat) (g : Hold N)
    (hg : (s.tasks u).hold = some g) : g.key ≠ k := by
  rintro rfl
  have hco := (h.ready b hca).freed hf
  exact key?_line_of_lookup_eq_none ha g.slot (hco.guards.held u g hg).2.key?

/-- What happens when a write is acknowledged: it is recorded, its block is
dirty, and nobody had a guard for it. -/
structure Acknowledged (s s' : Sys N) (k : BlockKey) (x : Bytes) : Prop where
  lastWrite : s'.lastWrite = update s.lastWrite k (some x)
  dirty : ∃ i, s'.Dirty i k
  unheld : ∀ u g, (s.tasks u).hold = some g → g.key ≠ k

theorem Change.acknowledged (h : Inv s) (hc : Change s a s') :
    (s'.lastWrite = s.lastWrite ∧ ∀ k x, s.event a s' ≠ some (.stored k x)) ∨
      ∃ k x, s.event a s' = some (.stored k x) ∧ Acknowledged s s' k x := by
  -- A step of a thread that is not in `store`, and a step of no thread.
  have ho : ∀ {t : Nat} {task : Task N}, a = .advance t → s.tasks t = task →
      (∀ c, task ≠ .store c) → ∀ k x, s.event a s' ≠ some (.stored k x) := by
    rintro t task rfl ht hne k x he
    obtain ⟨u, c, hu, hs, -⟩ := Sys.event_eq_stored he
    obtain rfl := Act.advance.inj hu
    exact hne c (ht.symm.trans hs)
  have hnot : (∀ t, a ≠ .advance t) → ∀ k x, s.event a s' ≠ some (.stored k x) := by
    intro ha k x he
    obtain ⟨u, c, hu, -⟩ := Sys.event_eq_stored he
    exact ha u hu
  cases hc with
  | quiet hq =>
    refine .inl ⟨hq.lastWrite, fun k x he => ?_⟩
    obtain ⟨t, c, -, ht, hd, -⟩ := Sys.event_eq_stored he
    exact hq.unwritten t c ht hd
  | init | arrived | droppedFill | answered | droppedWriteback | unpinned =>
    exact .inl ⟨rfl, hnot nofun⟩
  | @refused t task _ _ _ _ _ _ hne =>
    refine .inl ⟨rfl, fun k x he => ?_⟩
    obtain ⟨u, c, hu, -, hd, -⟩ := Sys.event_eq_stored he
    obtain rfl := Act.advance.inj hu
    rw [Sys.tasks_setTask, update_self] at hd
    exact hne hd
  | hit _ ht | claimed _ ht | finished _ ht | failed _ ht | begun _ ht | submitted _ ht
  | cleaned _ ht | kept _ ht => exact .inl ⟨rfl, ho rfl ht nofun⟩
  | @stored t c b b' slot hca ht hf hio _ hb =>
    refine .inr ⟨c.key, c.data, by simp [Sys.event, ht], rfl, ⟨slot, b', c.data, rfl, ?_⟩,
      h.unheld_of_found hca hf hio⟩
    rw [hb.line_self, ← (Cache.lookup_eq_some hf).2]
    rfl
  | @storedNew t c b b₁ b' slot hca ht hfr hab _ hb =>
    refine .inr ⟨c.key, c.data, by simp [Sys.event, ht], rfl, ⟨slot, b', c.data, rfl, ?_⟩,
      h.unheld_of_absent hca hfr hab⟩
    rw [hb.line_self]
    rfl

theorem Change.acknowledged_of_event (h : Inv s) (hc : Change s a s')
    (he : s.event a s' = some (.stored k x)) : Acknowledged s s' k x := by
  rcases hc.acknowledged h with ⟨-, hn⟩ | ⟨k', x', he', hack⟩
  · exact absurd he (hn k x)
  · obtain ⟨rfl, rfl⟩ := Event.stored.inj (Option.mem_unique he he')
    exact hack

/-- A writeback whose write has succeeded was told so in this step, or before. -/
theorem Change.written (h : Inv s) (hc : Change s a s') {u : Nat} {g : Hold N}
    (hg : (s'.tasks u).hold = some g) (hs : g.stage = .written) :
    (s.tasks u).hold = some g ∨
      ∃ bytes, s.event a s' = some (.wrote g.key bytes) ∧ s.lastWrite g.key = some bytes := by
  -- The thread that moves gets a task without such a guard.
  have hm : ∀ {t : Nat} {task : Task N} {s₁ : Sys N}, s₁.tasks = update s.tasks t task →
      (∀ g, task.hold = some g → g.stage ≠ .written) → (s₁.tasks u).hold = some g →
      (s.tasks u).hold = some g := by
    intro t task s₁ hta hne hg
    rw [hta] at hg
    exact eq_of_update Task.hold hg fun heq => absurd hs (hne g heq)
  cases hc with
  | quiet hq => exact .inl ((congrFun hq.hold u).symm.trans hg)
  | init | unpinned => exact .inl hg
  | refused _ _ _ ht => exact .inl (hm rfl (by simp [ht]) hg)
  | hit | claimed | finished | failed | droppedFill | stored | storedNew | begun | submitted
  | droppedWriteback => exact .inl (hm rfl (by simp [Task.hold]) hg)
  | @arrived _ _ _ _ outcome =>
    refine .inl (hm rfl (fun g hg => ?_) hg)
    cases hg
    cases outcome <;> simp [Except.toBool]
  | @answered t f b w bytes outcome junk hca ht =>
    by_cases hut : u = t
    · rw [hut, Sys.tasks_setTask, update_self] at hg
      cases hg
      cases outcome with
      | error e => simp [Except.toBool] at hs
      | ok v =>
        have hco := h.ready b hca
        obtain ⟨-, hl, hb⟩ := hco.guards.slot_of_hold
          (show (Task.hold ∘ s.tasks) t = some ⟨w.token.slot, w.key, .submitted bytes⟩ from
            congrArg Task.hold ht)
        have hf := hco.lines.fits w.token.slot
        rw [hl] at hf
        exact .inr ⟨bytes, by simp [Sys.event, ht], hb ▸ hf⟩
    · exact .inl (by rwa [Sys.tasks_setTask, update_of_ne hut] at hg)
  | cleaned _ _ _ hn | kept _ _ _ hn => exact .inl (hm rfl (by simp [hn]) hg)

end Writes

/-! ### Durable writes -/

/-- What a log says of the state it led to. -/
structure Durable (s : Sys N) (log : List (Event N)) : Prop where
  inv : Inv s
  /-- `lastWrite` is an acknowledged write or one after it. -/
  latest : ∀ k x y later, Since (.stored k x) later log → s.lastWrite k = some y →
    y = x ∨ .stored k y ∈ later
  reached : ∀ k x later, Since (.stored k x) later log → Covered later k x ∨ ∃ i, s.Dirty i k
  /-- A writeback that succeeded covers every write of its block. -/
  written : ∀ u g, (s.tasks u).hold = some g → g.stage = .written → ∀ x later,
    Since (.stored g.key x) later log → Covered later g.key x
  calls : ∀ t y o, (s.tasks t).call = some (y, o) → y.Owing o
  owing : ∀ t y o, (s.tasks t).call = some (y, o) → ∀ k x later,
    Since (.stored k x) later log → .syncBegan t ∈ later →
      Covered later k x ∨ ∃ i, y.owed i = true ∧ s.Dirty i k

namespace Durable

variable {s s' : Sys N} {a : Act N} {log l : List (Event N)} {k : BlockKey} {x : Bytes} {i : Fin N}

theorem boot (device : Nat → Bytes) : Durable (Sys.boot N device) [] where
  inv := Inv.boot device
  latest _ _ _ _ hs := absurd hs not_since_nil
  reached _ _ _ hs := absurd hs not_since_nil
  written _ _ hg := nomatch hg
  calls _ _ _ hca := nomatch hca
  owing _ _ _ hca := nomatch hca

section Step

variable (h : Durable s log) (hc : Change s a s')

include h hc

theorem dirty_step (hd : s.Dirty i k) (hs : Since (.stored k x) l log) :
    Covered l k x ∨ s'.Dirty i k := by
  rcases hc.dirty h.inv hd with hd' | ⟨t, f, w, -, ht, -, rfl⟩
  · exact .inr hd'
  · exact .inl (h.written t _ (congrArg Task.hold ht) rfl x l hs)

variable {later : List (Event N)}

theorem latest_step {y : Bytes} (hs : Since (.stored k x) later ((s.event a s').toList ++ log))
    (hl : s'.lastWrite k = some y) : y = x ∨ .stored k y ∈ later := by
  rcases since_toList_append.mp hs with ⟨rfl, he⟩ | ⟨l, rfl, hp⟩
  · have hack := hc.acknowledged_of_event h.inv he
    rw [hack.lastWrite, update_self] at hl
    exact .inl (Option.some.inj hl).symm
  · have hold : s.lastWrite k = some y → y = x ∨ .stored k y ∈ (s.event a s').toList ++ l :=
      fun hl => (h.latest k x y l hp hl).imp_right (List.mem_append_right _)
    rcases hc.acknowledged h.inv with ⟨hsa, -⟩ | ⟨k', x', he, hack⟩
    · exact hold (hsa ▸ hl)
    · rw [hack.lastWrite] at hl
      by_cases hk : k = k'
      · rw [hk, update_self] at hl
        cases hl
        exact .inr (by simp [he, hk])
      · exact hold (by rwa [update_of_ne hk] at hl)

theorem reached_step (hs : Since (.stored k x) later ((s.event a s').toList ++ log)) :
    Covered later k x ∨ ∃ i, s'.Dirty i k := by
  rcases since_toList_append.mp hs with ⟨rfl, he⟩ | ⟨l, rfl, hp⟩
  · exact .inr (hc.acknowledged_of_event h.inv he).dirty
  · rcases h.reached k x l hp with hcov | ⟨i, hd⟩
    · exact .inl (hcov.append _)
    · exact (h.dirty_step hc hd hp).imp (·.append _) (⟨i, ·⟩)

theorem written_step {u : Nat} {g : Hold N} (hg : (s'.tasks u).hold = some g)
    (hs : g.stage = .written)
    (hsi : Since (.stored g.key x) later ((s.event a s').toList ++ log)) :
    Covered later g.key x := by
  rcases since_toList_append.mp hsi with ⟨rfl, he⟩ | ⟨l, rfl, hp⟩
  · -- The step acknowledges a write, and then nobody has a guard for the block.
    rcases hc.written h.inv hg hs with hold | ⟨bytes, hw, -⟩
    · exact absurd rfl ((hc.acknowledged_of_event h.inv he).unheld u g hold)
    · exact nomatch he.symm.trans hw
  · rcases hc.written h.inv hg hs with hold | ⟨bytes, hw, hl⟩
    · exact (h.written u g hold hs x l hp).append _
    · rw [hw]
      exact ⟨bytes, List.mem_append_left _ (by simp),
        (h.latest _ x bytes l hp hl).imp_right (List.mem_append_right _)⟩

end Step

theorem owing_step (h : Durable s log) (hs : s.step a = some s') {t : Nat} {y : SyncCall N}
    {o : Option (Fin N)} (hca : (s'.tasks t).call = some (y, o)) {later : List (Event N)}
    (hsi : Since (.stored k x) later ((s.event a s').toList ++ log))
    (hb : .syncBegan t ∈ later) : Covered later k x ∨ ∃ i, y.owed i = true ∧ s'.Dirty i k := by
  have hc := h.inv.change hs
  rcases since_toList_append.mp hsi with ⟨rfl, -⟩ | ⟨l, rfl, hp⟩
  · cases hb
  · have hb : .syncBegan t ∈ l := by
      rcases List.mem_append.mp hb with hnow | hb
      · have ht := Sys.tasks_of_syncBegan hs (by simpa using hnow)
        rw [ht] at hca
        cases hca
      · exact hb
    -- The mask had a dirty slot of the block before the step.
    have hbe : Covered l k x ∨ ∃ i, y.owed i = true ∧ s.Dirty i k := by
      rcases Sys.call_step hs hca with ⟨y₀, o₀, hcall₀, hk⟩ | ⟨-, -, b, hcache, -, hm, -⟩
      · rw [(hk (h.calls t y₀ o₀ hcall₀)).1]
        exact h.owing t y₀ o₀ hcall₀ k x l hp hb
      · refine (h.reached k x l hp).imp_right fun ⟨i, hd⟩ => ⟨i, ?_, hd⟩
        rw [hm]
        exact Sys.unsyncedMask_of_dirty hcache hd
    rcases hbe with hcov | ⟨i, ho, hd⟩
    · exact .inl (hcov.append _)
    · exact (h.dirty_step hc hd hp).imp (·.append _) (⟨i, ho, ·⟩)

theorem step (h : Durable s log) (hs : s.step a = some s') :
    Durable s' ((s.event a s').toList ++ log) where
  inv := h.inv.step hs
  latest _ _ _ _ := h.latest_step (h.inv.change hs)
  reached _ _ _ := h.reached_step (h.inv.change hs)
  written _ _ hg hst _ _ := h.written_step (h.inv.change hs) hg hst
  calls _ _ _ := Sys.owing_step h.calls hs
  owing _ _ _ hca _ _ _ := h.owing_step hs hca

theorem of_run {device : Nat → Bytes} {as : List (Act N)} {p : Sys N × List (Event N)}
    (hrun : Run (Logged Sys.Step Sys.event) (Sys.boot N device, []) as p) : Durable p.1 p.2 := by
  refine Run.invariant (p := fun p => Durable p.1 p.2) ?_ hrun (Durable.boot device)
  rintro ⟨s, log⟩ a ⟨s', log'⟩ h ⟨hs, hlog⟩
  rw [hlog]
  exact h.step hs

end Durable

/-- When `sync` returns `Ok`, a write of every block that was acknowledged before
it began has reached the device: with the acknowledged bytes, or with bytes
written to the block later. -/
theorem sync_durable {device : Nat → Bytes} {as : List (Act N)} {s s' : Sys N}
    {log : List (Event N)} {a : Act N} {t : Nat}
    (hrun : Run (Logged Sys.Step Sys.event) (Sys.boot N device, []) as (s, log))
    (hstep : s.step a = some s') (hok : s.event a s' = some (.syncOk t)) :
    ∀ k x later before, log = later ++ .stored k x :: before → .syncBegan t ∈ later →
      ∃ bytes, .wrote k bytes ∈ later ∧ (bytes = x ∨ .stored k bytes ∈ later) := by
  intro k x later before hlog hbegan
  have h := Durable.of_run hrun
  obtain ⟨y, hcall, hclean⟩ := Sys.clean_of_syncOk h.calls hstep hok
  rcases h.owing t y none hcall k x later ⟨before, hlog⟩ hbegan with hcov | ⟨i, howed, hd⟩
  · exact hcov
  · exact absurd hd (hclean i k howed)

def isDroppedFlush (s : Sys 1) (log : List (Event 1)) : Bool :=
  match s.step (.advance 1), log with
  | some s', [.wroteBack 1 _, .wrote _ _, .owed 1 _, .syncBegan 1, .owed 3 _, .syncBegan 3,
      .stored ⟨0, 5⟩ _] =>
        match s.event (.advance 1) s' with
        | some (.syncOk 1) => true
        | _ => false
  | _, _ => false

/-- The block is being written back for another `sync` when this one begins, and
that one's future is dropped. -/
theorem sync_durable_dropped_flush :
    ∃ p : Sys 1 × List (Event 1), Run (Logged Sys.Step Sys.event) (Sys.boot 1 fun _ => [0], [])
      [.init fun _ => [], .writeBlock 0 ⟨0, 5⟩ (List.replicate 4096 7), .advance 0,
        .sync 3, .advance 3, .advance 3, .advance 3, .advance 3, .sync 1, .advance 1,
        .drop 3 [1, 2, 3], .advance 1, .advance 1, .advance 1, .complete 1 (.ok ()) [],
        .advance 1] p ∧
      ∃ s' x later before, p.1.step (.advance 1) = some s' ∧
        p.1.event (.advance 1) s' = some (.syncOk 1) ∧ p.2 = later ++ .stored ⟨0, 5⟩ x :: before ∧
        .syncBegan 1 ∈ later ∧
        ∃ bytes, .wrote ⟨0, 5⟩ bytes ∈ later ∧ (bytes = x ∨ .stored ⟨0, 5⟩ bytes ∈ later) := by
  refine exists_run (fun _ _ _ => logged_of_logging)
    (p := fun p => isDroppedFlush p.1 p.2 = true)
    (by decide +kernel) fun p hrun hlast => ?_
  obtain ⟨s, log⟩ := p
  simp only [isDroppedFlush] at hlast
  split at hlast
  · rename_i s' _ _ _ _ _ x hstep
    split at hlast
    · rename_i hok
      refine ⟨s', x, [_, _, _, .syncBegan 1, _, _], [], hstep, hok, rfl, by simp, ?_⟩
      exact sync_durable hrun hstep hok ⟨0, 5⟩ x _ [] rfl (by simp)
    · cases hlast
  · cases hlast

end Qunix.BufferCache
