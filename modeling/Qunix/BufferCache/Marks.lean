/-
What becomes of a dirtied block.

`mark_dirty` obliges the table: until the block is written back, its slot keeps
it and stays out of reach of eviction, and `dirty_slots` lists it whenever the
device does not have it. The table's log of marks and I/Os says when the
obligation ends (`Released`): by `mark_clean`, or by an I/O that began after the
mark, ended clean, and saw no other mark. Any operations may follow one another,
ends of I/Os whose token was lost included.
-/

import Qunix.BufferCache.Operations

namespace Qunix.BufferCache

open Function Qunix.Lib

inductive Mark (N : Nat) where
  /-- `mark_dirty` of a slot that holds `key`. -/
  | marked (slot : Fin N) (key : BlockKey)
  | cleaned (slot : Fin N)
  | began (slot : Fin N)
  | ended (slot : Fin N) (state : SlotState)
deriving DecidableEq, Repr

namespace Cache

variable {N : Nat} {c c' : Cache N} {op : Op N} {i j : Fin N} {e : Slot} {key : BlockKey}
  {later l : List (Mark N)} {m : Mark N}

/-- What an operation writes into the log. Claiming a slot begins its fill. -/
def mark (c : Cache N) (op : Op N) (_ : Cache N) : Option (Mark N) :=
  match op with
  | .insert key =>
    match c.insert key with
    | .ok (token, _) => some (.began token.slot)
    | .error _ => none
  | .markDirty slot => some (.marked slot (c.slots slot).key)
  | .markClean slot => some (.cleaned slot)
  | .beginIo slot => some (.began slot)
  | .endIo token state => some (.ended token.slot state)
  | .forceEndIo slot state => some (.ended slot state)
  | .pin _ | .unpin _ | .evict _ => none

end Cache

namespace Mark

variable {N : Nat} {i : Fin N} {key : BlockKey} {later l : List (Mark N)} {m : Mark N}

def slot : Mark N → Fin N
  | .marked slot _ | .cleaned slot | .began slot | .ended slot _ => slot

/-- An I/O against the slot is outstanding since it began in `later`, without a
mark since. Ending it with `InFlight` does not end it. -/
def Quiet (i : Fin N) (later : List (Mark N)) : Prop :=
  ∃ since before, later = since ++ .began i :: before ∧ (∀ key, .marked i key ∉ since) ∧
    ∀ state, .ended i state ∈ since → state = .inFlight

/-- The block was marked clean, or an I/O that began in `later` was ended with
`Clean`, without a mark in between. -/
def Released (i : Fin N) (later : List (Mark N)) : Prop :=
  .cleaned i ∈ later ∨ ∃ after before, later = after ++ .ended i .clean :: before ∧ Quiet i before

theorem Quiet.cons (h : Quiet i later) (hm : ∀ key, m ≠ .marked i key)
    (hend : ∀ state, m = .ended i state → state = .inFlight) : Quiet i (m :: later) := by
  obtain ⟨since, before, rfl, hma, he⟩ := h
  refine ⟨m :: since, before, rfl, fun key hmem => ?_, fun state hmem => ?_⟩
  · rcases List.mem_cons.mp hmem with heq | hmem
    · exact hm key heq.symm
    · exact hma key hmem
  · rcases List.mem_cons.mp hmem with heq | hmem
    · exact hend state heq.symm
    · exact he state hmem

end Mark

namespace Cache

variable {N : Nat} {c c' : Cache N} {op : Op N} {i j : Fin N} {e : Slot} {key : BlockKey}
  {later l : List (Mark N)} {m : Mark N}

/-- The slot still owes the write of `key`, after `later`: it is dirty, or in
flight with the write recorded or on its way. -/
def Owes (e : Slot) (i : Fin N) (key : BlockKey) (later : List (Mark N)) : Prop :=
  e.key = key ∧ (e.state = .dirty ∨
    (e.state = .inFlight ∧ (e.dirtiedDuringIo = true ∨ Mark.Quiet i later)))

theorem Owes.ended {state : SlotState} (h : Owes e i key later) (hio : e.state = .inFlight)
    (ho : ¬ Mark.Released i (.ended i state :: later)) (hst : state ≠ .free) :
    Owes (e.ended state) i key (.ended i state :: later) := by
  obtain ⟨hkey, hs⟩ := h
  refine ⟨hkey, ?_⟩
  rcases hs with hdi | ⟨-, hdirtied | hq⟩
  · rw [hio] at hdi
    cases hdi
  · exact .inl (by simp [Slot.ended, hdirtied])
  · cases hd : e.dirtiedDuringIo with
    | true => exact .inl (by simp [Slot.ended, hd])
    | false =>
      cases state with
      | free => exact absurd rfl hst
      -- The write reached the device: this is the end of the obligation.
      | clean => exact absurd (.inr ⟨[], later, rfl, hq⟩) ho
      | dirty => exact .inl (by simp [Slot.ended, hd])
      | inFlight =>
        refine .inr ⟨by simp [Slot.ended, hd], .inr (hq.cons (by simp) ?_)⟩
        rintro _ ⟨⟩
        rfl

theorem Owes.edit (h : Owes (c.slots i) i key later) (he : Edit c op i e)
    (ho : ¬ Mark.Released i ((c.mark op c').toList ++ later)) :
    Owes e i key ((c.mark op c').toList ++ later) := by
  have hs := h.2
  cases he with
  | claim ha hpos =>
    rcases hs with hst | ⟨hst, -⟩ <;> simp [free_of_position hpos] at hst
  | dirty hset => exact ⟨h.1, .inl rfl⟩
  | dirtyIo hio => exact ⟨h.1, .inr ⟨hio, .inl rfl⟩⟩
  | clean hset => exact absurd (.inl List.mem_cons_self) ho
  | beginIo hset => exact ⟨h.1, .inr ⟨rfl, .inr ⟨[], later, rfl, by simp, by simp⟩⟩⟩
  | endIo hio hst | forceEndIo hio hst => exact h.ended hio ho hst
  | pin | unpin => exact ⟨h.1, hs⟩
  | evict hr =>
    rcases hs with hst | ⟨hst, -⟩ <;> simp [Slot.reusable, hst] at hr

theorem Edit.mark_slot (h : Edit c op i e) (hm : c.mark op c' = some m) : m.slot = i := by
  cases h with
  | claim ha hpos =>
    simp only [mark, insert_of_free ha hpos, Option.some.injEq] at hm
    rw [← hm]
    rfl
  | pin | unpin | evict => cases hm
  | dirty | dirtyIo | clean | beginIo | endIo | forceEndIo =>
    cases hm
    rfl

theorem Owes.frame (h : Owes e i key later) (hm : ∀ m ∈ l, m.slot ≠ i) :
    Owes e i key (l ++ later) := by
  refine ⟨h.1, h.2.imp_right fun ⟨hio, hw⟩ => ⟨hio, hw.imp_right fun hq => ?_⟩⟩
  induction l with
  | nil => exact hq
  | cons m l ih =>
    have hmi := hm m List.mem_cons_self
    refine (ih fun m' hm' => hm m' (List.mem_cons_of_mem _ hm')).cons ?_ ?_
    · rintro key rfl
      exact hmi rfl
    · rintro state rfl
      exact absurd rfl hmi

theorem Owes.step (h : Owes (c.slots i) i key later) (hst : c.Step op c')
    (ho : ¬ Mark.Released i ((c.mark op c').toList ++ later)) :
    Owes (c'.slots i) i key ((c.mark op c').toList ++ later) := by
  rcases step_cases hst with ⟨rfl, ⟨key', err, rfl, hins⟩ | ⟨j, rfl⟩⟩ | ⟨j, e, he, hc⟩
  · simpa [mark, hins] using h
  · exact h
  · rcases eq_or_ne i j with rfl | hij
    · rw [hc, set_slots_self]
      exact h.edit he ho
    · rw [hc, set_slots_of_ne hij]
      refine h.frame fun m hm => ?_
      rw [he.mark_slot (Option.mem_toList.mp hm)]
      exact Ne.symm hij

/-- What a slot in debt answers: it keeps the block, is not given up, and is
listed for writeback unless the device has it. -/
theorem Owes.kept (h : Owes (c.slots i) i key later) :
    c.keyOf i = some key ∧ (∀ c', c.evict i ≠ .ok c') ∧ c.victim ≠ some i ∧
      ((c.slots i).state ≠ .inFlight → i ∈ c.dirtySlots) := by
  have hf : (c.slots i).state ≠ .free := by
    rcases h.2 with hst | ⟨hst, -⟩ <;> simp [hst]
  have hr : (c.slots i).reusable = false := by
    rcases h.2 with hst | ⟨hst, -⟩ <;> simp [Slot.reusable, hst]
  refine ⟨keyOf_eq_some.mpr ⟨hf, h.1⟩, fun c' hev => ?_, fun hv => ?_, fun hio => ?_⟩
  · rw [(evict_eq_ok hev).1] at hr
    cases hr
  · unfold victim at hv
    split at hv
    · rename_i j hj
      cases hv
      exact hf (free_of_position hj)
    · rw [position_eq_some hv] at hr
      cases hr
  · rcases h.2 with hst | ⟨hst, -⟩
    · simp [dirtySlots, hst]
    · exact absurd hst hio

/-- A dirtied block stays in its slot, out of reach of eviction and listed for
writeback while no I/O is outstanding, until it is marked clean or an I/O begun
after the mark ends clean without another mark. -/
theorem dirtied_block_kept {ops : List (Op N)} {log : List (Mark N)}
    (hrun : Run (Logged Step mark) (new N, []) ops (c, log))
    (hmark : Since (.marked i key) later log) (hopen : ¬ Mark.Released i later) :
    c.keyOf i = some key ∧ (∀ c', c.evict i ≠ .ok c') ∧ c.victim ≠ some i ∧
      ((c.slots i).state ≠ .inFlight → i ∈ c.dirtySlots) := by
  have howes : ∀ i key later, Since (.marked i key) later log → ¬ Mark.Released i later →
      Owes (c.slots i) i key later := by
    refine hrun.invariant (p := fun s => ∀ i key later, Since (.marked i key) later s.2 →
      ¬ Mark.Released i later → Owes (s.1.slots i) i key later) ?_ ?_
    · rintro ⟨c, log⟩ op ⟨c', log'⟩ hinv ⟨hst, hlog⟩ i key later hmark hopen
      rw [hlog] at hmark
      rcases since_toList_append.mp hmark with ⟨rfl, hm⟩ | ⟨l, rfl, hold⟩
      · rcases step_cases hst with ⟨-, ⟨key', err, rfl, hins⟩ | ⟨j, rfl⟩⟩ | ⟨j, e, he, rfl⟩
        · simp [mark, hins] at hm
        · cases hm
        · obtain rfl : i = j := he.mark_slot hm
          rw [set_slots_self]
          cases he with
          | claim ha hpos => simp [mark, insert_of_free ha hpos] at hm
          | dirty =>
            cases hm
            exact ⟨rfl, .inl rfl⟩
          | dirtyIo hio =>
            cases hm
            exact ⟨rfl, .inr ⟨hio, .inl rfl⟩⟩
          | clean | beginIo | endIo | forceEndIo | pin | unpin | evict => cases hm
      · refine (hinv i key l hold fun hrel => hopen ?_).step hst hopen
        rcases hrel with hclean | ⟨after, before, rfl, hquiet⟩
        · exact .inl (List.mem_append_right _ hclean)
        · exact .inr ⟨_ ++ after, before, by rw [List.append_assoc], hquiet⟩
    · intro i key later hmark
      exact absurd hmark not_since_nil
  exact (howes i key later hmark hopen).kept

/-- The completion of an I/O that began before the mark does not release it. -/
theorem not_released_by_end (i : Fin N) : ¬ Mark.Released i [.ended i .clean] := by
  rintro (hc | ⟨after, before, heq, since, before', hq, -⟩)
  · simp at hc
  · have hlen := congrArg List.length heq
    simp only [hq, List.length_append, List.length_cons, List.length_nil] at hlen
    omega

/-- A write during a writeback survives its completion. -/
theorem dirtied_block_kept_through_writeback :
    ∃ s : Cache 1 × List (Mark 1), Run (Logged Step mark) (new 1, [])
        [.insert ⟨0, 5⟩, .endIo ⟨0, .free⟩ .clean, .markDirty 0, .beginIo 0, .markDirty 0,
          .endIo ⟨0, .dirty⟩ .clean] s ∧
      s.1.keyOf 0 = some ⟨0, 5⟩ ∧ (∀ c', s.1.evict 0 ≠ .ok c') ∧ s.1.victim ≠ some 0 ∧
      ((s.1.slots 0).state ≠ .inFlight → 0 ∈ s.1.dirtySlots) := by
  refine exists_run (fun _ _ _ => logged_of_logging)
    (p := fun s : Cache 1 × List (Mark 1) => s.2 = [.ended 0 .clean, .marked 0 ⟨0, 5⟩, .began 0,
      .marked 0 ⟨0, 5⟩, .ended 0 .clean, .began 0])
    (by decide +kernel) fun s hrun hlog => ?_
  exact dirtied_block_kept hrun ⟨_, hlog⟩ (not_released_by_end 0)

end Cache

end Qunix.BufferCache
