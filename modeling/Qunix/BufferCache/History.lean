/-
What a run of the buffer cache shows, and what its steps do to dirty blocks.

The events are the returns that claims about whole runs speak of: a write that
was acknowledged, a write that reached the device, and how far a `sync` has come.
A block leaves its dirty slot in one way only: the writeback of that slot ended
well (`Change.dirty`). A slot becomes dirty with the block of an acknowledged
write only (`Inv.dirty_new`).
-/

import Qunix.BufferCache.Coherence

namespace Qunix.BufferCache

open Function Qunix.Lib

variable {N : Nat}

inductive Event (N : Nat) where
  /-- A `write_block` returned `Ok`. -/
  | stored (key : BlockKey) (data : Bytes)
  /-- A `write_at` of these bytes completed with `Ok`. -/
  | wrote (key : BlockKey) (bytes : Bytes)
  | syncBegan (t : Nat)
  /-- The mask a `sync` computes on entry. -/
  | owed (t : Nat) (mask : Fin N → Bool)
  /-- A `sync` finished the writeback of a slot, which had succeeded. -/
  | wroteBack (t : Nat) (slot : Fin N)
  | syncOk (t : Nat)

namespace Sys

/-- What a step shows. -/
def event (s : Sys N) (a : Act N) (s' : Sys N) : Option (Event N) :=
  match a with
  | .sync t => some (.syncBegan t)
  | .complete t (.ok ()) _ =>
    match s.tasks t with
    | .writing _ w bytes => some (.wrote w.key bytes)
    | _ => none
  | .advance t =>
    match s.tasks t, s'.tasks t with
    | .store c, .done (.ok ()) => some (.stored c.key c.data)
    | .owed, .round y => some (.owed t y.owed)
    | .written (.sync _) w (.ok ()), _ => some (.wroteBack t w.token.slot)
    | .round _, .done (.ok ()) => some (.syncOk t)
    | _, _ => none
  | _ => none

/-- The slot that a write goes into in this step. -/
def storesInto (s : Sys N) (a : Act N) : Option (Fin N) :=
  match a, s.step a with
  | .advance t, some s' =>
    match s.tasks t, s'.tasks t, s'.cache with
    | .store c, .done (.ok ()), some b' => b'.table.lookup c.key
    | _, _, _ => none
  | _, _ => none

/-- Slot `i` holds bytes of block `k` that the device may not hold. -/
def Dirty (s : Sys N) (i : Fin N) (k : BlockKey) : Prop :=
  ∃ b x, s.cache = some b ∧ b.line i = .dirty k x

@[simp] theorem tasks_setTask (s : Sys N) (t : Nat) (task : Task N) :
    (s.setTask t task).tasks = update s.tasks t task := rfl

@[simp] theorem tasks_finish (s : Sys N) (t : Nat) (r : Except BcacheError Unit) :
    (s.finish t r).tasks = update s.tasks t (.done r) := rfl

@[simp] theorem tasks_stop (s : Sys N) (why : Panic) : (s.stop why).tasks = s.tasks := rfl

variable {s s' : Sys N} {a : Act N} {t : Nat} {k : BlockKey} {x : Bytes}

theorem advance_of_step (hs : s.step (.advance t) = some s') : s.advance t = some s' := by
  unfold step at hs
  split_ifs at hs
  exact hs

/-- When a step shows an event. -/
inductive Shows (s : Sys N) : Act N → Sys N → Event N → Prop where
  | stored {t : Nat} {c : WriteCall} {s' : Sys N} : s.tasks t = .store c →
      s'.tasks t = .done (.ok ()) → Shows s (.advance t) s' (.stored c.key c.data)
  | wrote {t : Nat} {f : Flusher N} {w : Writeback N} {bytes junk : Bytes} {s' : Sys N} :
      s.tasks t = .writing f w bytes → Shows s (.complete t (.ok ()) junk) s' (.wrote w.key bytes)
  | syncBegan {t : Nat} {s' : Sys N} : Shows s (.sync t) s' (.syncBegan t)
  | owed {t : Nat} {y : SyncCall N} {s' : Sys N} : s.tasks t = .owed → s'.tasks t = .round y →
      Shows s (.advance t) s' (.owed t y.owed)
  | wroteBack {t : Nat} {y : SyncCall N} {w : Writeback N} {s' : Sys N} :
      s.tasks t = .written (.sync y) w (.ok ()) →
      Shows s (.advance t) s' (.wroteBack t w.token.slot)
  | syncOk {t : Nat} {y : SyncCall N} {s' : Sys N} : s.tasks t = .round y →
      s'.tasks t = .done (.ok ()) → Shows s (.advance t) s' (.syncOk t)

theorem shows_of_event {e : Event N} (h : s.event a s' = some e) : Shows s a s' e := by
  unfold event at h
  split at h
  · cases h
    exact .syncBegan
  · split at h
    · rename_i ht
      cases h
      exact .wrote ht
    · cases h
  · split at h
    case h_1 c ht hd =>
      cases h
      exact .stored ht hd
    case h_2 y ht hr =>
      cases h
      exact .owed ht hr
    case h_3 y w ht =>
      cases h
      exact .wroteBack ht
    case h_4 y ht hd =>
      cases h
      exact .syncOk ht hd
    · cases h
  · cases h

theorem event_eq_stored (h : s.event a s' = some (.stored k x)) :
    ∃ t c, a = .advance t ∧ s.tasks t = .store c ∧ s'.tasks t = .done (.ok ()) ∧ c.key = k ∧
      c.data = x := by
  cases shows_of_event h with
  | stored ht hd => exact ⟨_, _, rfl, ht, hd, rfl, rfl⟩

end Sys

/-! ### Dirty blocks -/

section Dirty

variable {b b₁ b' : Bcache N} {i j : Fin N} {k : BlockKey} {x : Bytes} {slot : Slot} {frame : Bytes}
  {filling : Bool} {s s' : Sys N} {a : Act N} {t : Nat}

theorem line_ne_dirty_of_reusable (h : (b.table.slots i).reusable = true) :
    b.line i ≠ .dirty k x := by
  obtain ⟨hs, -⟩ : ((b.table.slots i).state = .free ∨ (b.table.slots i).state = .clean) ∧
      (b.table.slots i).pins = 0 := by simpa [Slot.reusable] using h
  rcases hs with hs | hs
  · simp [Bcache.line, lineOf, hs]
  · simp [Bcache.line, lineOf, hs]

theorem Bcache.Freed.dirty_iff (hf : b.Freed b') :
    b'.line i = .dirty k x ↔ b.line i = .dirty k x := by
  rcases hf with rfl | ⟨v, hr, hb⟩
  · rfl
  · by_cases hiv : i = v
    · constructor
      · intro h
        rw [hiv, hb.line_self] at h
        cases h
      · intro h
        exact absurd (hiv ▸ h) (line_ne_dirty_of_reusable hr)
    · rw [hb.line_of_ne hiv]

theorem Sys.dirty_iff (hcache : s.cache = some b) : s.Dirty i k ↔ ∃ x, b.line i = .dirty k x := by
  constructor
  · rintro ⟨b₀, x, hb₀, hl⟩
    obtain rfl := Option.mem_unique hcache hb₀
    exact ⟨x, hl⟩
  · rintro ⟨x, hl⟩
    exact ⟨b, x, hcache, hl⟩

theorem Bcache.unsyncedMask_iff : b.unsyncedMask i = true ↔ ∃ k x, b.line i = .dirty k x := by
  unfold Bcache.unsyncedMask Bcache.line lineOf Cache.stateOf
  cases (b.table.slots i).state with
  | free | clean | dirty => simp
  | inFlight => cases b.filling i <;> simp

section Becomes

variable (hcache : s.cache = some b) (hf : b.Freed b₁) (hb : b₁.Becomes j slot frame filling b')
  (hcache' : s'.cache = some b')

include hcache hf hb hcache'

/-- Whether a block is dirty in slot `i` changes only with that slot. -/
theorem Sys.dirty_iff_of_becomes (hj : i = j → ((∃ x, lineOf slot frame filling = .dirty k x) ↔
    ∃ x, b₁.line j = .dirty k x)) : s'.Dirty i k ↔ s.Dirty i k := by
  rw [Sys.dirty_iff hcache, Sys.dirty_iff hcache']
  simp only [← hf.dirty_iff]
  by_cases hij : i = j
  · rw [hij, hb.line_self]
    exact hj hij
  · rw [hb.line_of_ne hij]

end Becomes

theorem lineOf_eq_dirty {y : Bytes} (h : lineOf slot frame filling = .dirty k y) :
    slot.key = k := by
  unfold lineOf at h
  split at h
  · cases h
  · cases h
  · exact (Line.dirty.inj h).1
  · split_ifs at h
    exact (Line.dirty.inj h).1

/-- A slot stops holding a dirty block by a writeback that succeeded, and starts by a write. -/
theorem Change.dirty_cases (h : Inv s) (hc : Change s a s') (i : Fin N) (k : BlockKey) :
    (s'.Dirty i k ↔ s.Dirty i k) ∨
    (¬ s'.Dirty i k ∧ ∃ t f w, a = .advance t ∧ s.tasks t = .written f w (.ok ()) ∧
      w.token.slot = i ∧ w.key = k) ∨
    (s'.Dirty i k ∧ ∃ t c, a = .advance t ∧ s.tasks t = .store c ∧ s'.tasks t = .done (.ok ()) ∧
      c.key = k) := by
  cases hc with
  | quiet hq =>
    left
    rw [Sys.Dirty, hq.cache]
    rfl
  | init hn =>
    refine .inl (iff_of_false ?_ ?_)
    · rintro ⟨b, x, hcache, hl⟩
      cases hcache
      cases hl
    · rintro ⟨b, x, hcache, -⟩
      cases hn.symm.trans hcache
  | refused hcache hfr =>
    left
    rw [Sys.dirty_iff hcache, Sys.dirty_iff rfl]
    simp only [hfr.dirty_iff]
  | hit hcache _ _ _ hb | unpinned hcache _ hb =>
    exact .inl (Sys.dirty_iff_of_becomes hcache (.inl rfl) hb rfl fun _ => Iff.rfl)
  | claimed hcache _ hfr _ hfree hb =>
    refine .inl (Sys.dirty_iff_of_becomes hcache hfr hb rfl fun _ =>
      iff_of_false (by simp [lineOf]) ?_)
    rw [line_of_free hfree]
    simp
  | arrived hcache ht =>
    obtain ⟨hst, hfi, -⟩ := line_eq_pending (h.line_of_fill hcache ht)
    refine .inl (Sys.dirty_iff_of_becomes hcache (.inl rfl) (Bcache.becomes_frame ..) rfl
      fun _ => ?_)
    simp [Bcache.line, lineOf, hst, hfi]
  | finished hcache ht hb | failed hcache ht hb =>
    refine .inl (Sys.dirty_iff_of_becomes hcache (.inl rfl) hb rfl fun _ =>
      iff_of_false (by simp [lineOf, Slot.empty]) ?_)
    rw [h.line_of_filled hcache ht]
    simp
  | droppedFill hcache ht hb =>
    refine .inl (Sys.dirty_iff_of_becomes hcache (.inl rfl) hb rfl fun _ =>
      iff_of_false (by simp [lineOf, Slot.empty]) ?_)
    rw [h.line_of_fill hcache ht]
    simp
  | @stored t c b b' slot hcache ht hfo _ _ hb =>
    have hkey := (Cache.lookup_eq_some hfo).2
    by_cases hk : i = slot ∧ c.key = k
    · obtain ⟨rfl, rfl⟩ := hk
      exact .inr (.inr ⟨⟨b', c.data, rfl, by rw [hb.line_self, ← hkey]; rfl⟩, t, c, rfl, ht,
        by simp, rfl⟩)
    · refine .inl (Sys.dirty_iff_of_becomes hcache (.inl rfl) hb rfl fun hij => iff_of_false ?_ ?_)
      · rintro ⟨x, hx⟩
        have hkey' := lineOf_eq_dirty hx
        exact hk ⟨hij, hkey.symm.trans hkey'⟩
      · rintro ⟨x, hx⟩
        exact hk ⟨hij, hkey.symm.trans (line_eq_dirty hx).2.1⟩
  | @storedNew t c b b₁ b' slot hcache ht hfr _ hfree hb =>
    by_cases hk : i = slot ∧ c.key = k
    · obtain ⟨rfl, rfl⟩ := hk
      exact .inr (.inr ⟨⟨b', c.data, rfl, hb.line_self⟩, t, c, rfl, ht, by simp, rfl⟩)
    · refine .inl (Sys.dirty_iff_of_becomes hcache hfr hb rfl fun hij => iff_of_false ?_ ?_)
      · rintro ⟨x, hx⟩
        exact hk ⟨hij, lineOf_eq_dirty hx⟩
      · rw [line_of_free hfree]
        simp
  | @begun _ _ b _ _ hcache _ hdi hb =>
    have hfi := (h.ready b hcache).not_filling (by rw [hdi]; simp)
    refine .inl (Sys.dirty_iff_of_becomes hcache (.inl rfl) hb rfl fun _ => ?_)
    simp [Bcache.line, lineOf, hdi, hfi]
  | submitted hcache | answered hcache => exact .inl Iff.rfl
  | @cleaned t f b _ w _ hcache ht hb =>
    have hm := ((h.ready b hcache).guards.slot_of_hold (congrArg Task.hold ht)).2.1
    by_cases hk : i = w.token.slot ∧ w.key = k
    · obtain ⟨rfl, rfl⟩ := hk
      refine .inr (.inl ⟨?_, t, f, w, rfl, ht, rfl, rfl⟩)
      rw [Sys.dirty_iff rfl, hb.line_self]
      simp [lineOf]
    · refine .inl (Sys.dirty_iff_of_becomes hcache (.inl rfl) hb rfl fun hij =>
        iff_of_false (by simp [lineOf]) ?_)
      rw [hm]
      rintro ⟨x, hx⟩
      exact hk ⟨hij, (Line.dirty.inj hx).1⟩
  | @kept _ _ b _ w _ _ hcache ht hb =>
    have hm : b.line w.token.slot = _ :=
      ((h.ready b hcache).guards.slot_of_hold (congrArg Task.hold ht)).2
    obtain ⟨-, hkey, -⟩ := line_eq_dirty hm
    refine .inl (Sys.dirty_iff_of_becomes hcache (.inl rfl) hb rfl fun _ => ?_)
    simp [hm, lineOf, hkey]
  | @droppedWriteback _ _ b _ w _ _ hcache ht hb =>
    have hm : b.line w.token.slot = _ :=
      ((h.ready b hcache).guards.slot_of_hold (congrArg Task.hold ht)).2.1
    obtain ⟨-, hkey, -⟩ := line_eq_dirty hm
    refine .inl (Sys.dirty_iff_of_becomes hcache (.inl rfl) hb rfl fun _ => ?_)
    simp [hm, lineOf, hkey]

/-- A block leaves its dirty slot only by a writeback that succeeded. -/
theorem Change.dirty (h : Inv s) (hc : Change s a s') (hd : s.Dirty i k) :
    s'.Dirty i k ∨ ∃ t f w, a = .advance t ∧ s.tasks t = .written f w (.ok ()) ∧
      w.token.slot = i ∧ w.key = k := by
  rcases hc.dirty_cases h i k with heq | ⟨-, hw⟩ | ⟨hd', -⟩
  · exact .inl (heq.mpr hd)
  · exact .inr hw
  · exact .inl hd'

theorem Coherent.lookup_eq_some {device : Nat → Bytes} {last : BlockKey → Option Bytes}
    {hold : Nat → Option (Hold N)} {refs : List (BlockRef N)} (h : Coherent b device last hold refs)
    (hi : (b.line i).key? = some k) : b.table.lookup k = some i := by
  cases hl : b.table.lookup k with
  | none => exact absurd hi (key?_line_of_lookup_eq_none hl i)
  | some j =>
    have hj := key?_line_eq_some.mpr (Cache.lookup_eq_some hl)
    exact congrArg some (h.lines.unique j i k hj hi)

theorem Inv.storesInto_eq_some (h : Inv s) (hs : s.step (.advance t) = some s') {c : WriteCall}
    (ht : s.tasks t = .store c) (hd : s'.tasks t = .done (.ok ()))
    (hcache' : s'.cache = some b') (hl : b'.line i = .dirty c.key x) :
    s.storesInto (.advance t) = some i := by
  simp only [Sys.storesInto, hs, ht, hd, hcache']
  exact ((h.step hs).ready b' hcache').lookup_eq_some (by rw [hl]; rfl)

/-- A slot becomes dirty only by a write that goes into it. -/
theorem Inv.dirty_new (h : Inv s) (hs : s.step a = some s') (hd : s'.Dirty i k) :
    s.Dirty i k ∨ (s.storesInto a = some i ∧ ∃ x, s.event a s' = some (.stored k x)) := by
  rcases (h.change hs).dirty_cases h i k with heq | ⟨hno, -⟩ | ⟨⟨b', x, hcache', hl⟩, t, c, rfl,
    ht, hok, rfl⟩
  · exact .inl (heq.mp hd)
  · exact absurd hd hno
  · refine .inr ⟨h.storesInto_eq_some hs ht hok hcache' hl, c.data, ?_⟩
    simp [Sys.event, ht, hok]

end Dirty

end Qunix.BufferCache
