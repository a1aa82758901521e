/-
Runs of the buffer cache's table (`crates/qunix-bcache/src/lib.rs`) under all of
its operations.

The kernel's cache uses some of the table's operations in some orders; here any
operation follows any other. The operations that take `&mut self` are `Op`; the
queries leave the table as it is. An operation whose own assertion fails has no
successor. Every one that returns writes at most one slot, and `Edit` says how,
once for all that follows.
-/

import Mathlib.Data.List.Count
import Qunix.BufferCache.Table
import Qunix.Lib.Placement
import Qunix.Lib.Run

namespace Qunix.BufferCache

open Function Qunix.Lib

namespace Cache

variable {N : Nat}

/-- `none` is the failed assertion "only a resident slot with no io outstanding
can be marked clean". -/
def markClean (c : Cache N) (slot : Fin N) : Option (Cache N) :=
  match (c.slots slot).state with
  | .clean | .dirty => some (c.set slot { c.slots slot with state := .clean })
  | .free | .inFlight => none

def forceEndIo (c : Cache N) (slot : Fin N) (state : SlotState) : Except Panic (Cache N) :=
  c.endIo ⟨slot, .clean⟩ state

end Cache

inductive Op (N : Nat) where
  | insert (key : BlockKey)
  | markDirty (slot : Fin N)
  | markClean (slot : Fin N)
  | beginIo (slot : Fin N)
  | endIo (token : IoToken N) (state : SlotState)
  | forceEndIo (slot : Fin N) (state : SlotState)
  | pin (slot : Fin N)
  | unpin (slot : Fin N)
  | evict (slot : Fin N)
deriving DecidableEq, Repr

namespace Cache

variable {N : Nat}

/-- The table after one operation. A refusal returns; a failed assertion does
not. -/
def apply (c : Cache N) : Op N → Option (Cache N)
  | .insert key =>
    match c.insert key with
    | .ok (_, c') => some c'
    | .error _ => some c
  | .markDirty slot => (c.markDirty slot).toOption
  | .markClean slot => c.markClean slot
  | .beginIo slot => (c.beginIo slot).toOption.map Prod.snd
  | .endIo token state => (c.endIo token state).toOption
  | .forceEndIo slot state => (c.forceEndIo slot state).toOption
  | .pin slot => (c.pin slot).toOption
  | .unpin slot => (c.unpin slot).toOption
  | .evict slot =>
    match c.evict slot with
    | .ok c' => some c'
    | .error _ => some c

def Step (c : Cache N) (op : Op N) (c' : Cache N) : Prop := c.apply op = some c'

end Cache

/-- A slot whose outstanding I/O is ended with `state`. -/
def Slot.ended (e : Slot) (state : SlotState) : Slot :=
  { e with dirtiedDuringIo := false, state := if e.dirtiedDuringIo then .dirty else state }

/-- Holding a block, with no I/O outstanding. -/
def SlotState.settled : SlotState → Bool
  | .clean | .dirty => true
  | .free | .inFlight => false

namespace Cache

variable {N : Nat} {c c' : Cache N} {op : Op N} {i j : Fin N} {e : Slot} {key : BlockKey}
  {token : IoToken N} {state : SlotState}

/-- The operation leaves `e` in slot `i` of the table `c`. -/
inductive Edit (c : Cache N) : Op N → Fin N → Slot → Prop where
  | claim {key : BlockKey} {i : Fin N} (habsent : c.lookup key = none)
      (hpos : c.position (·.state == .free) = some i) :
      Edit c (.insert key) i
        { key := key, state := .inFlight, pins := 0, dirtiedDuringIo := false }
  | dirty {i : Fin N} (hset : (c.slots i).state.settled) :
      Edit c (.markDirty i) i { c.slots i with state := .dirty }
  | dirtyIo {i : Fin N} (hio : (c.slots i).state = .inFlight) :
      Edit c (.markDirty i) i { c.slots i with dirtiedDuringIo := true }
  | clean {i : Fin N} (hset : (c.slots i).state.settled) :
      Edit c (.markClean i) i { c.slots i with state := .clean }
  | beginIo {i : Fin N} (hset : (c.slots i).state.settled) :
      Edit c (.beginIo i) i { c.slots i with state := .inFlight }
  | endIo {token : IoToken N} {state : SlotState} (hio : (c.slots token.slot).state = .inFlight)
      (hst : state ≠ .free) :
        Edit c (.endIo token state) token.slot ((c.slots token.slot).ended state)
  | forceEndIo {i : Fin N} {state : SlotState} (hio : (c.slots i).state = .inFlight)
      (hst : state ≠ .free) : Edit c (.forceEndIo i state) i ((c.slots i).ended state)
  | pin {i : Fin N} (hocc : (c.slots i).state ≠ .free) :
      Edit c (.pin i) i { c.slots i with pins := (c.slots i).pins + 1 }
  | unpin {i : Fin N} (hpins : 0 < (c.slots i).pins) :
      Edit c (.unpin i) i { c.slots i with pins := (c.slots i).pins - 1 }
  | evict {i : Fin N} (hreuse : (c.slots i).reusable = true) : Edit c (.evict i) i .empty

/-! ### What each operation did -/

theorem free_of_position (h : c.position (·.state == .free) = some i) :
    (c.slots i).state = .free := by
  simpa using position_eq_some h

theorem insert_spec (h : c.insert key = .ok (token, c')) :
    ∃ e, Edit c (.insert key) token.slot e ∧ c' = c.set token.slot e := by
  unfold insert at h
  split at h
  · cases h
  · rename_i ha
    split at h
    · cases h
    · rename_i index hpos
      cases h
      exact ⟨_, .claim ha hpos, rfl⟩

theorem endIo_spec (h : c.endIo token state = .ok c') :
    (c.slots token.slot).state = .inFlight ∧ state ≠ .free ∧
      c' = c.set token.slot ((c.slots token.slot).ended state) := by
  simp only [endIo] at h
  split at h
  · cases h
  · rename_i hst
    split at h
    · cases h
    · rename_i hio
      exact ⟨not_not.mp hio, hst, (Except.ok.inj h).symm⟩

theorem markDirty_spec (h : c.markDirty i = .ok c') :
    ∃ e, Edit c (.markDirty i) i e ∧ c' = c.set i e := by
  simp only [markDirty] at h
  split at h
  · cases h
  · rename_i hio
    exact ⟨_, .dirtyIo hio, (Except.ok.inj h).symm⟩
  all_goals
    rename_i hset
    exact ⟨_, .dirty (by simp [hset, SlotState.settled]), (Except.ok.inj h).symm⟩

theorem markClean_spec (h : c.markClean i = some c') :
    ∃ e, Edit c (.markClean i) i e ∧ c' = c.set i e := by
  unfold markClean at h
  split at h
  case h_1 hset | h_2 hset =>
    exact ⟨_, .clean (by simp [hset, SlotState.settled]), (Option.some.inj h).symm⟩
  all_goals cases h

theorem beginIo_spec (h : c.beginIo i = .ok (token, c')) :
    token.slot = i ∧ ∃ e, Edit c (.beginIo i) i e ∧ c' = c.set i e := by
  obtain ⟨ht, hc⟩ := beginIo_eq_ok h
  refine ⟨by rw [ht], _, .beginIo ?_, hc⟩
  simp only [beginIo] at h
  split at h
  · cases h
  · cases h
  all_goals
    rename_i hset
    simp [hset, SlotState.settled]

theorem pin_spec (h : c.pin i = .ok c') : ∃ e, Edit c (.pin i) i e ∧ c' = c.set i e := by
  refine ⟨_, .pin fun hf => ?_, pin_eq_ok h⟩
  simp [pin, hf] at h

theorem unpin_spec (h : c.unpin i = .ok c') : ∃ e, Edit c (.unpin i) i e ∧ c' = c.set i e := by
  refine ⟨_, .unpin ?_, unpin_eq_ok h⟩
  by_contra hpi
  simp [unpin, hpi] at h

/-- A step leaves the table alone, after a refusal, or edits one slot of it. -/
theorem step_cases (h : c.Step op c') :
    (c' = c ∧ ((∃ key err, op = .insert key ∧ c.insert key = .error err) ∨ ∃ i, op = .evict i)) ∨
      ∃ i e, Edit c op i e ∧ c' = c.set i e := by
  unfold Step at h
  cases op with
  | insert key =>
    simp only [apply] at h
    cases hins : c.insert key with
    | error err =>
      rw [hins] at h
      exact .inl ⟨(Option.some.inj h).symm, .inl ⟨key, err, rfl, hins⟩⟩
    | ok r =>
      obtain ⟨token, c₁⟩ := r
      rw [hins] at h
      cases h
      exact .inr ⟨token.slot, insert_spec hins⟩
  | markDirty i => exact .inr ⟨i, markDirty_spec (ok_of_toOption h)⟩
  | markClean i => exact .inr ⟨i, markClean_spec h⟩
  | beginIo i =>
    obtain ⟨⟨token, c₁⟩, hok, rfl⟩ := Option.map_eq_some_iff.mp h
    exact .inr ⟨i, (beginIo_spec (ok_of_toOption hok)).2⟩
  | endIo token state =>
    obtain ⟨hio, hst, hc⟩ := endIo_spec (ok_of_toOption h)
    exact .inr ⟨token.slot, _, .endIo hio hst, hc⟩
  | forceEndIo i state =>
    have hok : c.endIo ⟨i, .clean⟩ state = .ok c' := ok_of_toOption h
    obtain ⟨hio, hst, hc⟩ := endIo_spec hok
    exact .inr ⟨i, _, .forceEndIo hio hst, hc⟩
  | pin i => exact .inr ⟨i, pin_spec (ok_of_toOption h)⟩
  | unpin i => exact .inr ⟨i, unpin_spec (ok_of_toOption h)⟩
  | evict i =>
    simp only [apply] at h
    cases hev : c.evict i with
    | error err =>
      rw [hev] at h
      exact .inl ⟨(Option.some.inj h).symm, .inr ⟨i, rfl⟩⟩
    | ok c₁ =>
      rw [hev] at h
      cases h
      obtain ⟨hr, hc⟩ := evict_eq_ok hev
      exact .inr ⟨i, _, .evict hr, hc⟩

theorem set_slots_of_ne (h : j ≠ i) (e : Slot) : (c.set i e).slots j = c.slots j :=
  update_of_ne h ..

/-! ### The table as a partial map -/

theorem keyOf_eq_some :
    c.keyOf i = some key ↔ (c.slots i).state ≠ .free ∧ (c.slots i).key = key := by
  simp [keyOf]

theorem keyOf_eq_none : c.keyOf i = none ↔ (c.slots i).state = .free := by
  simp [keyOf]

theorem keyOf_set (i : Fin N) (e : Slot) :
    (c.set i e).keyOf = update c.keyOf i (if e.state ≠ .free then some e.key else none) := by
  funext j
  rcases eq_or_ne j i with rfl | hj
  · simp [keyOf]
  · rw [update_of_ne hj, keyOf, keyOf, set_slots_of_ne hj]

/-- Only `insert` and `evict` change which block a slot holds. -/
theorem Edit.holds (h : Edit c op i e) :
    (∃ key, op = .insert key ∧ (c.slots i).state = .free ∧ c.lookup key = none ∧
        e.state ≠ .free ∧ e.key = key) ∨
      e = .empty ∨
      (e.key = (c.slots i).key ∧ (e.state = .free ↔ (c.slots i).state = .free)) := by
  have hocc : ∀ {s : SlotState}, s.settled = true → s ≠ .free := by
    rintro s hs rfl
    cases hs
  cases h with
  | claim ha hpos => exact .inl ⟨_, rfl, free_of_position hpos, ha, nofun, rfl⟩
  | dirty hset | clean hset | beginIo hset =>
    exact .inr (.inr ⟨rfl, iff_of_false nofun (hocc hset)⟩)
  | dirtyIo hio | pin hpin | unpin hpi => exact .inr (.inr ⟨rfl, Iff.rfl⟩)
  | endIo hio hst | forceEndIo hio hst =>
    refine .inr (.inr ⟨rfl, iff_of_false ?_ (by simp [hio])⟩)
    simp only [Slot.ended]
    split
    · nofun
    · exact hst
  | evict hr => exact .inr (.inl rfl)

variable {p : Placement (Fin N) BlockKey} {ops : List (Op N)}

/-- Every step puts an absent block into a free slot, empties a slot, or changes
nothing of the map. -/
theorem step_placement (h : c.Step op c') (hp : p.holds = c.keyOf) :
    ∃ p' : Placement (Fin N) BlockKey, p'.holds = c'.keyOf ∧
      Relation.ReflGen Placement.Move p p' := by
  rcases step_cases h with ⟨rfl, -⟩ | ⟨i, e, he, rfl⟩
  · exact ⟨p, hp, .refl⟩
  · rw [keyOf_set]
    rcases he.holds with ⟨key, -, hf, ha, hocc, rfl⟩ | rfl | ⟨hkey, hiff⟩
    · have hn : ∀ j, p.holds j ≠ some e.key := by
        intro j hj
        rw [hp, keyOf_eq_some] at hj
        exact lookup_eq_none ha j hj.1 hj.2
      refine ⟨p.put i e.key hn, ?_, .single (.put ?_ hn)⟩
      · simp [Placement.put, hp, hocc]
      · rw [hp]
        exact keyOf_eq_none.mpr hf
    · exact ⟨p.drop i, by simp [Placement.drop, hp, Slot.empty], .single .drop⟩
    · refine ⟨p, ?_, .refl⟩
      rw [hp, hkey]
      simp only [ne_eq, hiff]
      exact (update_eq_self i _).symm

/-- In every reachable table, the blocks in the slots are a partial map that was
built up by such moves. -/
theorem run_placement (hrun : Run Step (new N) ops c) :
    ∃ p : Placement (Fin N) BlockKey, p.holds = c.keyOf ∧
      Relation.ReflTransGen Placement.Move .empty p := by
  refine hrun.invariant (p := fun c => ∃ p : Placement (Fin N) BlockKey, p.holds = c.keyOf ∧
    Relation.ReflTransGen Placement.Move .empty p) ?_ ⟨.empty, ?_, .refl⟩
  · rintro c op c' ⟨p, hp, hm⟩ hst
    obtain ⟨p', hp', hmo⟩ := step_placement hst hp
    exact ⟨p', hp', hm.trans (hmo.to_reflTransGen)⟩
  · funext i
    simp [Placement.empty, keyOf, new, Slot.empty]

/-! ### What a slot records of its I/O -/

/-- A slot that holds nothing is not pinned, and a write is recorded only while
an I/O is outstanding. -/
structure Tidy (c : Cache N) : Prop where
  unpinned : ∀ i, (c.slots i).state = .free → (c.slots i).pins = 0
  outstanding : ∀ i, (c.slots i).dirtiedDuringIo = true → (c.slots i).state = .inFlight

theorem Edit.tidy (h : Edit c op i e) (hc : Tidy c) :
    (e.state = .free → e.pins = 0) ∧ (e.dirtiedDuringIo = true → e.state = .inFlight) := by
  have hq : (c.slots i).state.settled = true → (c.slots i).dirtiedDuringIo = false := by
    intro hset
    by_contra hd
    rw [hc.outstanding i (by simpa using hd)] at hset
    cases hset
  cases h with
  | claim ha hpos => exact ⟨nofun, nofun⟩
  | dirty hset | clean hset => exact ⟨nofun, by simp [hq hset]⟩
  | dirtyIo hio => exact ⟨by simp [hio], fun _ => hio⟩
  | beginIo hset => exact ⟨nofun, fun _ => rfl⟩
  | endIo hio hst | forceEndIo hio hst =>
    refine ⟨fun hf => ?_, nofun⟩
    simp only [Slot.ended] at hf
    split_ifs at hf
    exact absurd hf hst
  | pin hocc => exact ⟨fun hf => absurd hf hocc, hc.outstanding i⟩
  | unpin hpi =>
    refine ⟨fun hf => ?_, hc.outstanding i⟩
    simp [hc.unpinned i hf]
  | evict hr => exact ⟨fun _ => rfl, nofun⟩

theorem Tidy.step (hc : Tidy c) (h : c.Step op c') : Tidy c' := by
  rcases step_cases h with ⟨rfl, -⟩ | ⟨i, e, he, rfl⟩
  · exact hc
  · obtain ⟨hpi, hd⟩ := he.tidy hc
    constructor
    all_goals
      intro j
      rcases eq_or_ne j i with rfl | hj
      · simpa
      · rw [set_slots_of_ne hj]
        first | exact hc.unpinned j | exact hc.outstanding j

theorem Tidy.of_run (hrun : Run Step (new N) ops c) : Tidy c :=
  hrun.invariant (fun _ _ _ => Tidy.step) ⟨fun _ _ => rfl, nofun⟩

/-! ### A bounded partial map -/

theorem position_isSome {p : Slot → Bool} (h : p (c.slots i) = true) :
    ∃ j, c.position p = some j := by
  cases hpos : c.position p with
  | some j => exact ⟨j, rfl⟩
  | none =>
    have := position_eq_none hpos i
    simp [h] at this

theorem position_free (h : (c.slots i).state = .free) :
    ∃ j, c.position (·.state == .free) = some j :=
  position_isSome (i := i) (by simp [h])

/-- What the operations answer in a table that is a bounded partial map from
blocks to slots. -/
structure BoundedMap (c : Cache N) : Prop where
  /-- No block is in two slots. -/
  inj : ∀ i j, (c.slots i).state ≠ .free → (c.slots j).state ≠ .free →
    (c.slots i).key = (c.slots j).key → i = j
  free : ∀ i, (c.slots i).state = .free →
    (c.slots i).pins = 0 ∧ (c.slots i).dirtiedDuringIo = false
  lookup : ∀ key i, c.lookup key = some i ↔ c.keyOf i = some key
  alreadyResident : ∀ key i, c.insert key = .error (.alreadyResident i) ↔ c.keyOf i = some key
  full : ∀ key, c.insert key = .error .full ↔
    (∀ i, c.keyOf i ≠ some key) ∧ ∀ i, (c.slots i).state ≠ .free
  /-- Otherwise a free slot is claimed, and only it changes. -/
  claim : ∀ key, (∀ i, c.keyOf i ≠ some key) → (∃ i, (c.slots i).state = .free) →
    ∃ token c', c.insert key = .ok (token, c') ∧ (c.slots token.slot).state = .free ∧
      c'.slots = update c.slots token.slot
        { key := key, state := .inFlight, pins := 0, dirtiedDuringIo := false }
  victim : ∀ i, c.victim = some i → ∃ c', c.evict i = .ok c'
  victim_of_evictable : ∀ i c', c.evict i = .ok c' → ∃ j, c.victim = some j
  /-- Free slots first. -/
  victim_free : (∃ i, (c.slots i).state = .free) → ∀ i, c.victim = some i →
    (c.slots i).state = .free
  evict : ∀ i, (∃ c', c.evict i = .ok c') ↔
    (c.slots i).pins = 0 ∧ ((c.slots i).state = .free ∨ (c.slots i).state = .clean)
  evict_slots : ∀ i c', c.evict i = .ok c' → c'.slots = update c.slots i .empty
  /-- A refusal leaves the table as it was. -/
  evict_refused : ∀ i err c', c.evict i = .error err → c.Step (.evict i) c' → c' = c

theorem evict_isOk : (∃ c', c.evict i = .ok c') ↔
    (c.slots i).pins = 0 ∧ ((c.slots i).state = .free ∨ (c.slots i).state = .clean) := by
  simp only [evict]
  by_cases hpi : (c.slots i).pins = 0
  · cases hst : (c.slots i).state <;> simp [hpi]
  · simp [hpi]

theorem insert_of_lookup (h : c.lookup key = some i) :
    c.insert key = .error (.alreadyResident i) := by
  simp [insert, h]

theorem insert_of_full (h : c.lookup key = none) (hf : c.position (·.state == .free) = none) :
    c.insert key = .error .full := by
  simp [insert, h, hf]

theorem insert_of_free (h : c.lookup key = none) (hf : c.position (·.state == .free) = some i) :
    c.insert key = .ok (⟨i, .free⟩,
      c.set i { key := key, state := .inFlight, pins := 0, dirtiedDuringIo := false }) := by
  simp [insert, h, hf]

section

variable (hp : p.holds = c.keyOf)

include hp

/-- A table whose slots hold distinct blocks answers every lookup with the slot
that holds the block. -/
theorem lookup_iff :
    c.lookup key = some i ↔ c.keyOf i = some key := by
  constructor
  · intro h
    exact keyOf_eq_some.mpr (lookup_eq_some h)
  · intro h
    cases hl : c.lookup key with
    | none =>
      obtain ⟨hocc, hkey⟩ := keyOf_eq_some.mp h
      exact absurd hkey (lookup_eq_none hl i hocc)
    | some j =>
      have hj := keyOf_eq_some.mpr (lookup_eq_some hl)
      rw [p.inj i j key (hp ▸ h) (hp ▸ hj)]

theorem lookup_eq_none_iff :
    c.lookup key = none ↔ ∀ i, c.keyOf i ≠ some key := by
  rw [Option.eq_none_iff_forall_ne_some]
  simp [lookup_iff hp]

theorem insert_alreadyResident_iff :
    c.insert key = .error (.alreadyResident i) ↔ c.keyOf i = some key := by
  rw [← lookup_iff hp]
  refine ⟨fun h => ?_, insert_of_lookup⟩
  cases hl : c.lookup key with
  | some j =>
    rw [insert_of_lookup hl] at h
    simpa using h
  | none =>
    cases hpos : c.position (·.state == .free) with
    | none =>
      rw [insert_of_full hl hpos] at h
      cases h
    | some j =>
      rw [insert_of_free hl hpos] at h
      cases h

theorem insert_full_iff :
    c.insert key = .error .full ↔
      (∀ i, c.keyOf i ≠ some key) ∧ ∀ i, (c.slots i).state ≠ .free := by
  rw [← lookup_eq_none_iff hp]
  constructor
  · intro h
    cases hl : c.lookup key with
    | some j =>
      rw [insert_of_lookup hl] at h
      cases h
    | none =>
      refine ⟨rfl, fun i hf => ?_⟩
      obtain ⟨j, hj⟩ := position_free hf
      rw [insert_of_free hl hj] at h
      cases h
  · rintro ⟨hl, hn⟩
    cases hpos : c.position (·.state == .free) with
    | none => exact insert_of_full hl hpos
    | some j => exact absurd (free_of_position hpos) (hn j)

end

theorem evict_victim (ht : c.Tidy) (h : c.victim = some i) : ∃ c', c.evict i = .ok c' := by
  rw [evict_isOk]
  unfold victim at h
  split at h
  · rename_i j hj
    obtain rfl := Option.some.inj h
    have hf := free_of_position hj
    exact ⟨ht.unpinned j hf, .inl hf⟩
  · have hr := position_eq_some h
    simp only [Slot.reusable, Bool.and_eq_true, Bool.or_eq_true, beq_iff_eq] at hr
    exact ⟨hr.2, hr.1⟩

theorem exists_victim (h : c.evict i = .ok c') : ∃ j, c.victim = some j := by
  unfold victim
  split
  · rename_i j _
    exact ⟨j, rfl⟩
  · exact position_isSome (evict_eq_ok h).1

theorem Tidy.not_dirtied (ht : c.Tidy) (hf : (c.slots i).state = .free) :
    (c.slots i).dirtiedDuringIo = false := by
  by_contra hd
  have hio := ht.outstanding i (by simpa using hd)
  rw [hf] at hio
  cases hio

/-- Every reachable table is a bounded partial map from blocks to slots, built up
by claiming and by emptying slots. -/
theorem cache_refines_placement {ops : List (Op N)} (hrun : Run Step (new N) ops c) :
    c.BoundedMap ∧ ∃ p : Placement (Fin N) BlockKey, p.holds = c.keyOf ∧
      Relation.ReflTransGen Placement.Move .empty p := by
  obtain ⟨p, hp, hmoves⟩ := run_placement hrun
  have htidy := Tidy.of_run hrun
  refine ⟨?_, p, hp, hmoves⟩
  constructor
  case inj =>
    intro i j hi hj hkey
    exact p.inj i j (c.slots j).key (by rw [hp]; exact keyOf_eq_some.mpr ⟨hi, hkey⟩)
      (by rw [hp]; exact keyOf_eq_some.mpr ⟨hj, rfl⟩)
  case free => exact fun i hfree => ⟨htidy.unpinned i hfree, htidy.not_dirtied hfree⟩
  case lookup => exact fun key i => lookup_iff hp
  case alreadyResident => exact fun key i => insert_alreadyResident_iff hp
  case full => exact fun key => insert_full_iff hp
  case claim =>
    rintro key habsent ⟨i, hfree⟩
    obtain ⟨j, hj⟩ := position_free hfree
    exact ⟨⟨j, .free⟩, _, insert_of_free ((lookup_eq_none_iff hp).mpr habsent) hj,
      free_of_position hj, rfl⟩
  case victim => exact fun i h => evict_victim htidy h
  case victim_of_evictable => exact fun i c' h => exists_victim h
  case victim_free =>
    rintro ⟨i, hfree⟩ j h
    obtain ⟨k, hk⟩ := position_free hfree
    simp only [victim, hk, Option.some.injEq] at h
    subst h
    exact free_of_position hk
  case evict => exact fun i => evict_isOk
  case evict_slots =>
    intro i c' h
    rw [(evict_eq_ok h).2]
    rfl
  case evict_refused =>
    intro i err c' h hst
    simp only [Step, apply, h] at hst
    exact (Option.some.inj hst).symm

/-- Two blocks in a table of two slots, one of them written to during its fill. -/
theorem cache_refines_placement_filled :
    ∃ c : Cache 2, Run Step (new 2)
        [.insert ⟨0, 5⟩, .endIo ⟨0, .free⟩ .clean, .insert ⟨0, 7⟩, .markDirty 1,
          .endIo ⟨1, .free⟩ .clean] c ∧
      c.lookup ⟨0, 7⟩ = some 1 ∧ c.victim = some 0 ∧ c.dirtySlots = [1] ∧
      c.BoundedMap ∧ ∃ p : Placement (Fin 2) BlockKey, p.holds = c.keyOf ∧
        Relation.ReflTransGen Placement.Move .empty p := by
  refine exists_run_of_exec (by decide +kernel) fun c hrun hfacts =>
    and_assoc.mp (and_assoc.mp ⟨hfacts, ?_⟩)
  exact cache_refines_placement hrun

end Cache

/-! ### The tokens of outstanding I/Os -/

/-- A table and the tokens its callers hold. -/
structure Claimed (N : Nat) where
  cache : Cache N
  live : List (IoToken N)

namespace Claimed

variable {N : Nat} {t t' : Claimed N} {op : Op N} {i : Fin N} {token : IoToken N}
  {state : SlotState}

def new (N : Nat) : Claimed N := ⟨.new N, []⟩

/-- `insert` and `begin_io` hand out a token and `end_io` consumes one its caller
holds; no token is dropped and no I/O is ended without one. -/
def apply (t : Claimed N) : Op N → Option (Claimed N)
  | .insert key =>
    match t.cache.insert key with
    | .ok (token, c) => some ⟨c, token :: t.live⟩
    | .error _ => some t
  | .beginIo slot => (t.cache.beginIo slot).toOption.map fun (token, c) => ⟨c, token :: t.live⟩
  | .endIo token state =>
    if token ∈ t.live then
      (t.cache.endIo token state).toOption.map fun c => ⟨c, t.live.erase token⟩
    else none
  | .forceEndIo _ _ => none
  | op => (t.cache.apply op).map fun c => ⟨c, t.live⟩

/-- The live tokens that name a slot. -/
def tokens (t : Claimed N) (i : Fin N) : Nat := t.live.countP (·.slot = i)

/-- An I/O is not ended with `InFlight`, unless a write during it makes the slot
dirty anyway. -/
def settles (t : Claimed N) : Op N → Bool
  | .endIo token state =>
    decide (state ≠ .inFlight) || (t.cache.slots token.slot).dirtiedDuringIo
  | _ => true

/-- What a step does to the tokens of one slot and to whether an I/O is
outstanding against it. -/
inductive Turn (t t' : Claimed N) (i : Fin N) : Prop where
  | keep (htokens : t'.tokens i = t.tokens i)
      (hio : (t'.cache.slots i).state = .inFlight ↔ (t.cache.slots i).state = .inFlight)
  | start (htokens : t'.tokens i = t.tokens i + 1) (hbefore : (t.cache.slots i).state ≠ .inFlight)
      (hafter : (t'.cache.slots i).state = .inFlight)
  | finish (htokens : t'.tokens i + 1 = t.tokens i) (hbefore : (t.cache.slots i).state = .inFlight)
      (hafter : (t'.cache.slots i).state ≠ .inFlight)

variable {c : Cache N} {e : Slot}

theorem Turn.of_start (hb : (t.cache.slots token.slot).state ≠ .inFlight)
    (he : e.state = .inFlight) (hc : c = t.cache.set token.slot e) :
    Turn t ⟨c, token :: t.live⟩ i := by
  subst hc
  rcases eq_or_ne i token.slot with rfl | hi
  · exact .start (by simp [tokens]) hb (by simpa using he)
  · refine .keep ?_ (by simp [Cache.set_slots_of_ne hi])
    simp [tokens, Ne.symm hi]

theorem Turn.of_finish (hl : token ∈ t.live)
    (hb : (t.cache.slots token.slot).state = .inFlight) (he : e.state ≠ .inFlight)
    (hc : c = t.cache.set token.slot e) : Turn t ⟨c, t.live.erase token⟩ i := by
  subst hc
  have hco : t.tokens i = (t.live.erase token).countP (·.slot = i) +
      if token.slot = i then 1 else 0 := by
    rw [tokens, (List.perm_cons_erase hl).countP_eq, List.countP_cons]
    simp
  rcases eq_or_ne i token.slot with rfl | hi
  · exact .finish (by simpa [tokens] using hco.symm) hb (by simpa using he)
  · refine .keep ?_ (by simp [Cache.set_slots_of_ne hi])
    simpa [tokens, Ne.symm hi] using hco.symm

theorem Turn.of_edit {j : Fin N} (he : e.state = .inFlight ↔ (t.cache.slots j).state = .inFlight)
    (hc : c = t.cache.set j e) :
    Turn t ⟨c, t.live⟩ i := by
  subst hc
  refine .keep rfl ?_
  rcases eq_or_ne i j with rfl | hi
  · simpa using he
  · simp [Cache.set_slots_of_ne hi]

theorem Turn.of_apply (h : t.cache.Step op c)
    (hop : (∃ j, op = .markDirty j ∨ op = .markClean j ∨ op = .pin j ∨
      op = .unpin j ∨ op = .evict j)) :
    Turn t ⟨c, t.live⟩ i := by
  have hio : ∀ {s : SlotState}, s.settled = true → s ≠ .inFlight := by
    rintro s hs rfl
    cases hs
  rcases Cache.step_cases h with ⟨rfl, -⟩ | ⟨j, e, he, hc⟩
  · exact .keep rfl Iff.rfl
  · refine of_edit ?_ hc
    cases he with
    | dirty hset | clean hset => exact iff_of_false nofun (hio hset)
    | dirtyIo | pin | unpin => exact Iff.rfl
    | evict hr =>
      refine iff_of_false nofun fun hst => ?_
      simp [Slot.reusable, hst] at hr
    | claim | beginIo | endIo | forceEndIo => simp at hop

theorem turn (h : t.apply op = some t') (hs : t.settles op = true) : Turn t t' i := by
  cases op with
  | insert key =>
    simp only [apply] at h
    cases hins : t.cache.insert key with
    | error err =>
      rw [hins] at h
      cases h
      exact .keep rfl Iff.rfl
    | ok r =>
      rw [hins] at h
      cases h
      obtain ⟨-, hf, hc⟩ := Cache.insert_eq_ok hins
      exact .of_start (by simp [hf]) rfl hc
  | beginIo j =>
    obtain ⟨⟨token, c⟩, hok, rfl⟩ := Option.map_eq_some_iff.mp h
    obtain ⟨rfl, e, he, hc⟩ := Cache.beginIo_spec (ok_of_toOption hok)
    cases he with
    | beginIo hset =>
      refine .of_start (fun hio => ?_) rfl hc
      rw [hio] at hset
      cases hset
  | endIo token state =>
    simp only [apply] at h
    split_ifs at h with hl
    obtain ⟨c, hok, rfl⟩ := Option.map_eq_some_iff.mp h
    obtain ⟨hio, -, hc⟩ := Cache.endIo_spec (ok_of_toOption hok)
    refine .of_finish hl hio ?_ hc
    simp only [settles, Bool.or_eq_true, decide_eq_true_eq] at hs
    simp only [Slot.ended]
    split_ifs with hq
    · nofun
    · exact hs.resolve_right hq
  | forceEndIo j state => cases h
  | markDirty j | markClean j | pin j | unpin j | evict j =>
    obtain ⟨c, hc, rfl⟩ := Option.map_eq_some_iff.mp h
    exact .of_apply hc ⟨j, by simp⟩

/-- While every I/O is ended with a settled state, the slots in flight are those
with one live token, and no other slot has a token. -/
theorem one_token_per_io {ops : List (Op N)}
    (hrun : Run (fun t op t' => apply t op = some t' ∧ t.settles op = true) (new N) ops t)
    (i : Fin N) :
    ((t.cache.slots i).state = .inFlight ↔ t.tokens i = 1) ∧
      ((t.cache.slots i).state ≠ .inFlight → t.tokens i = 0) := by
  have hcount : t.tokens i = if (t.cache.slots i).state = .inFlight then 1 else 0 := by
    refine hrun.invariant
      (p := fun t => t.tokens i = if (t.cache.slots i).state = .inFlight then 1 else 0) ?_ rfl
    rintro t op t' hinv ⟨hst, hs⟩
    cases turn (i := i) hst hs with
    | keep htokens hio => simp [htokens, hinv, hio]
    | start htokens hbefore hafter =>
      rw [if_neg hbefore] at hinv
      rw [if_pos hafter, htokens, hinv]
    | finish htokens hbefore hafter =>
      rw [if_pos hbefore] at hinv
      rw [if_neg hafter]
      omega
  by_cases hio : (t.cache.slots i).state = .inFlight
  · simp [hcount, hio]
  · simp [hcount, hio]

/-- A fill ended clean, and a writeback of the same slot under way. -/
theorem one_token_per_io_writeback :
    ∃ t : Claimed 1, Run (fun t op t' => apply t op = some t' ∧ t.settles op = true) (new 1)
        [.insert ⟨0, 5⟩, .endIo ⟨0, .free⟩ .clean, .markDirty 0, .beginIo 0] t ∧
      (t.cache.slots 0).state = .inFlight ∧ t.tokens 0 = 1 := by
  refine exists_run_of_exec_guarded (by decide +kernel) fun t hrun hio => ⟨hio, ?_⟩
  exact (one_token_per_io hrun 0).1.mp hio

/-- `end_io` accepts `InFlight`: the token is consumed and the slot stays in
flight. -/
theorem stranded_without_token :
    ∃ t : Claimed 1, Run (fun t op t' => apply t op = some t') (new 1)
        [.insert ⟨0, 5⟩, .endIo ⟨0, .free⟩ .inFlight] t ∧
      (t.cache.slots 0).state = .inFlight ∧ t.tokens 0 = 0 := by
  exact exists_run_of_exec (by decide +kernel) fun _ _ hfacts => hfacts

end Claimed

end Qunix.BufferCache
