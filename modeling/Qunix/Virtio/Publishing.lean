/-
Making chains available (`publish`, `last_slot` and `avail_index` in
`crates/qunix-virtio/src/queue.rs`, the end of `write_rings` in
`kernel/src/block.rs`).

`publish` writes the head of a chain into the driver's copy of the available ring
and advances a 16-bit index that never stops. `write_rings` computes the slot back
from that index, copies it to the ring in memory and then stores the index. A
device keeps a 16-bit index of its own and reduces it modulo the queue's size. The
two reductions agree because the size divides `2 ^ 16`; then both rings show the
last heads published, one ring's worth of them (`Shows`).
-/

import Qunix.Lib.Ring
import Qunix.Virtio.Operations

namespace Qunix.Virtio

open Function Qunix.Lib

/-- The ring slot the last `publish` wrote. -/
def SplitQueue.lastSlot (q : SplitQueue) : Nat := (q.availIdx + 2 ^ 16 - 1) % 2 ^ 16 % q.size

/-- The available ring in the memory the device reads. -/
structure AvailRing where
  slots : Nat → Nat
  idx : Nat

/-- The end of `write_rings`: the slot that was just filled, then the index. -/
def AvailRing.write (ring : AvailRing) (queueSize : Nat) (q : SplitQueue) :
    Except Panic AvailRing :=
  let slot := (q.availIdx + 2 ^ 16 - 1) % 2 ^ 16 % queueSize
  if slot < q.size then .ok ⟨update ring.slots slot (q.availRing slot), q.availIdx⟩
  else .error .outOfBounds

/-- A queue of `queueSize` descriptors, the ring in memory, and the heads published
so far. -/
structure Posting where
  queueSize : Nat
  held : Held
  ring : AvailRing
  posted : List Nat

inductive PostOp where
  /-- `publish` and `write_rings`. -/
  | post (head : Nat)
  /-- Any other operation of the queue. -/
  | other (op : Op)

/-- The operation publishes nothing. -/
def Op.quiet : Op → Bool
  | .publish _ => false
  | _ => true

namespace Posting

def new (size : Nat) (slots : Nat → Nat) : Posting := ⟨size, .new size, ⟨slots, 0⟩, []⟩

def apply (s : Posting) : PostOp → Except Panic Posting
  | .post head => do
    let held ← s.held.apply (.publish head)
    let ring ← s.ring.write s.queueSize held.queue
    pure { s with held := held, ring := ring, posted := s.posted ++ [head] }
  | .other op => do
    let held ← s.held.apply op
    pure { s with held := held }

def step (s : Posting) (o : PostOp) : Option Posting :=
  match o with
  | .other op => if op.quiet then (s.apply o).toOption else none
  | .post _ => (s.apply o).toOption

def Step (s : Posting) (o : PostOp) (s' : Posting) : Prop := s.step o = some s'

end Posting

/-! ### What the other operations leave alone -/

/-- The available ring and the size of the queue are as before. -/
structure SplitQueue.SameAvail (q q' : SplitQueue) : Prop where
  size : q'.size = q.size
  availIdx : q'.availIdx = q.availIdx
  availRing : q'.availRing = q.availRing

theorem SplitQueue.Rechained.sameAvail {q q' : SplitQueue} (h : Rechained q q') :
    SameAvail q q' := by
  obtain ⟨_, _, _, rfl⟩ := h
  exact ⟨rfl, rfl, rfl⟩

theorem Held.sameAvail_of_quiet {s s' : Held} {op : Op} (hqu : op.quiet = true)
    (h : s.apply op = .ok s') : s.queue.SameAvail s'.queue := by
  cases op with
  | publish head => cases hqu
  | allocChain n =>
    obtain ⟨⟨r, q⟩, ha, h⟩ := bind_eq_ok h
    have hq := (SplitQueue.rechained_allocChain ha).sameAvail
    cases r with
    | none | some head =>
      cases h
      exact hq
  | describe idx addr len deviceWritable =>
    obtain ⟨q, hd, h⟩ := bind_eq_ok h
    cases h
    exact (SplitQueue.rechained_modify hd).sameAvail
  | freeChain head =>
    obtain ⟨q, hf, h⟩ := bind_eq_ok h
    cases h
    obtain ⟨q₁, hq₁, rfl⟩ := SplitQueue.rechained_freeChain hf
    have hq₁ := hq₁.sameAvail
    exact ⟨hq₁.size, hq₁.availIdx, hq₁.availRing⟩
  | ingestUsed bytes idx =>
    cases h
    unfold SplitQueue.ingestUsed
    split <;> exact ⟨rfl, rfl, rfl⟩
  | ingestUsedSlot slot bytes =>
    cases h
    unfold SplitQueue.ingestUsedSlot
    split <;> exact ⟨rfl, rfl, rfl⟩
  | takeUsed slot =>
    cases h
    unfold SplitQueue.takeUsed
    simp only
    split
    · exact ⟨rfl, rfl, rfl⟩
    · split <;> exact ⟨rfl, rfl, rfl⟩

/-! ### Runs -/

namespace Posting

variable {s s' : Posting} {size head : Nat}

/-- The two rings show what was published, and the indices count it. -/
structure Inv (size : Nat) (s : Posting) : Prop where
  declared : s.queueSize = size
  queueRing : Shows size s.held.queue.availRing s.posted (s.posted.length - size)
  memRing : Shows size s.ring.slots s.posted (s.posted.length - size)
  availIdx : s.held.queue.availIdx = s.posted.length % 2 ^ 16
  idx : s.ring.idx = s.posted.length % 2 ^ 16
  size : s.held.queue.size = size

theorem Inv.new (size : Nat) (slots : Nat → Nat) : Inv size (.new size slots) :=
  ⟨rfl, .nil, .nil, rfl, rfl, rfl⟩

/-- What the publication of `head` does to the two rings and their indices. -/
structure Posts (size : Nat) (s : Posting) (head : Nat) (s' : Posting) : Prop where
  queue : s'.held.queue.availRing =
    update s.held.queue.availRing (s.posted.length % size) head
  ring : s'.ring.slots = update s.ring.slots (s.posted.length % size) head
  lastSlot : s'.held.queue.lastSlot = s.posted.length % size
  availIdx : s'.held.queue.availIdx = (s.posted.length + 1) % 2 ^ 16
  idx : s'.ring.idx = (s.posted.length + 1) % 2 ^ 16

/-- The slot computed back from an index that was just advanced. -/
theorem slot_of_next (hdvd : size ∣ 2 ^ 16) (n : Nat) :
    ((n + 1) % 2 ^ 16 + 2 ^ 16 - 1) % 2 ^ 16 % size = n % size := by
  have hb : ((n + 1) % 2 ^ 16 + 2 ^ 16 - 1) % 2 ^ 16 = n % 2 ^ 16 := by omega
  rw [hb, Nat.mod_mod_of_dvd n hdvd]

theorem Inv.publish (i : Inv size s) (hdvd : size ∣ 2 ^ 16) (hh : head < size) :
    s.held.queue.publish head = .ok { s.held.queue with
      inFlight := update s.held.queue.inFlight head true
      availRing := update s.held.queue.availRing (s.posted.length % size) head
      availIdx := (s.posted.length + 1) % 2 ^ 16 } := by
  have hs : s.held.queue.availIdx % s.held.queue.size = s.posted.length % size := by
    rw [i.size, i.availIdx, Nat.mod_mod_of_dvd _ hdvd]
  have hidx : (s.held.queue.availIdx + 1) % 2 ^ 16 = (s.posted.length + 1) % 2 ^ 16 := by
    rw [i.availIdx, Nat.mod_add_mod]
  unfold SplitQueue.publish
  rw [if_pos (i.size ▸ hh), hs, hidx]

theorem apply_post {held : Held} {ring : AvailRing}
    (hh : s.held.apply (.publish head) = .ok held)
    (hr : s.ring.write s.queueSize held.queue = .ok ring) :
    s.apply (.post head) =
      .ok { s with held := held, ring := ring, posted := s.posted ++ [head] } := by
  rw [apply, bind_of_eq_ok hh, bind_of_eq_ok hr]
  rfl

theorem Inv.post (i : Inv size s) (hdvd : size ∣ 2 ^ 16) (hhe : head < size) :
    ∃ s', s.apply (.post head) = .ok s' ∧ Posts size s head s' ∧ Inv size s' := by
  have hpos : 0 < size := Nat.pos_of_dvd_of_pos hdvd (by decide)
  have hs := slot_of_next hdvd s.posted.length
  let q : SplitQueue := { s.held.queue with
    inFlight := update s.held.queue.inFlight head true
    availRing := update s.held.queue.availRing (s.posted.length % size) head
    availIdx := (s.posted.length + 1) % 2 ^ 16 }
  let ring : AvailRing := ⟨update s.ring.slots (s.posted.length % size) head, q.availIdx⟩
  have hw : s.ring.write s.queueSize q = .ok ring := by
    unfold AvailRing.write
    rw [i.declared]
    simp only [q, ring, hs, i.size, Nat.mod_lt _ hpos, if_true, update_self]
  have hlen : (s.posted ++ [head]).length = s.posted.length + 1 := by simp
  refine ⟨{ s with held := ⟨q, s.held.live⟩, ring := ring, posted := s.posted ++ [head] }, ?_,
    ⟨rfl, rfl, ?_, rfl, rfl⟩, ⟨i.declared, ?_, ?_, ?_, ?_, i.size⟩⟩
  · have hh : s.held.apply (.publish head) = .ok ⟨q, s.held.live⟩ := by
      simp only [Held.apply, i.publish hdvd hhe]
      rfl
    exact apply_post hh hw
  · unfold SplitQueue.lastSlot
    simp only [q, i.size, hs]
  · rw [hlen]
    exact (i.queueRing.mono (by omega)).push (by omega)
  · rw [hlen]
    exact (i.memRing.mono (by omega)).push (by omega)
  · rw [hlen]
  · rw [hlen]

theorem Inv.posts (i : Inv size s) (hdvd : size ∣ 2 ^ 16) (h : Step s (.post head) s') :
    Posts size s head s' ∧ Inv size s' := by
  have ha := ok_of_toOption h
  have hhe : head < size := by
    obtain ⟨held, hh, -⟩ := bind_eq_ok ha
    obtain ⟨q, hp, -⟩ := bind_eq_ok hh
    unfold SplitQueue.publish at hp
    split_ifs at hp
    rwa [← i.size]
  obtain ⟨s₁, heq, hpo, i₁⟩ := i.post hdvd hhe
  rw [ha, Except.ok.injEq] at heq
  exact heq ▸ ⟨hpo, i₁⟩

theorem Inv.step (i : Inv size s) (hdvd : size ∣ 2 ^ 16) {o : PostOp} (h : Step s o s') :
    Inv size s' := by
  cases o with
  | post head => exact (i.posts hdvd h).2
  | other op =>
    unfold Step Posting.step at h
    simp only at h
    split_ifs at h with hq
    obtain ⟨held, hh, heq⟩ := bind_eq_ok (ok_of_toOption h)
    cases heq
    have hs := Held.sameAvail_of_quiet hq hh
    exact ⟨i.declared, hs.availRing ▸ i.queueRing, i.memRing,
      hs.availIdx.trans i.availIdx, i.idx, hs.size.trans i.size⟩

/-- Publications land in slot after slot for ever, and a device finds the last of
them by its own wrapped count. -/
theorem published_in_order {k : Nat} (hk : 2 ^ k ≤ 32768) {slots : Nat → Nat} {ops : List PostOp}
    (hrun : Run Step (new (2 ^ k) slots) ops s) :
    s.held.queue.availIdx = s.posted.length % 2 ^ 16 ∧
      s.ring.idx = s.posted.length % 2 ^ 16 ∧
      (∀ j head, s.posted.length - min s.posted.length (2 ^ k) ≤ j → s.posted[j]? = some head →
        s.held.queue.availRing (j % 2 ^ 16 % 2 ^ k) = head ∧
          s.ring.slots (j % 2 ^ 16 % 2 ^ k) = head) ∧
      (∀ head < 2 ^ k, ∃ s', Step s (.post head) s') ∧
      ∀ head s', Step s (.post head) s' → Posts (2 ^ k) s head s' := by
  have hdvd : 2 ^ k ∣ 2 ^ 16 := by
    have : k ≤ 15 := (Nat.pow_le_pow_iff_right (by decide)).mp (hk.trans (by decide : _ ≤ 2 ^ 15))
    exact Nat.pow_dvd_pow 2 (by omega)
  have hinv : Inv (2 ^ k) s :=
    hrun.invariant (fun _ _ _ i hstep => i.step hdvd hstep) (.new (2 ^ k) slots)
  refine ⟨hinv.availIdx, hinv.idx, fun j head hj hhead => ?_, fun head hhead => ?_,
    fun head s' hstep => ?_⟩
  · rw [Nat.mod_mod_of_dvd _ hdvd]
    have hstart : s.posted.length - 2 ^ k ≤ j := by omega
    exact ⟨hinv.queueRing j hstart head hhead, hinv.memRing j hstart head hhead⟩
  · obtain ⟨s', happly, -⟩ := hinv.post hdvd hhead
    exact ⟨s', by simp [Step, Posting.step, happly, Except.toOption]⟩
  · exact (hinv.posts hdvd hstep).1

/-- Three publications in a ring of two slots: the last two are shown. -/
theorem published_in_order_second_turn :
    ∃ s : Posting,
      Run Step (new (2 ^ 1) fun _ => 9)
        [.other (.allocChain 1), .post 0, .other (.allocChain 1), .post 1, .post 0] s ∧
      s.posted = [0, 1, 0] ∧ s.ring.idx = 3 ∧ s.ring.slots (1 % 2 ^ 16 % 2 ^ 1) = 1 ∧
      s.ring.slots (2 % 2 ^ 16 % 2 ^ 1) = 0 := by
  refine exists_run_of_exec (by decide +kernel)
    fun s hrun hposted => ⟨hposted, ?_⟩
  obtain ⟨-, hidx, hshown, -⟩ := published_in_order (by decide) hrun
  rw [hposted] at hidx hshown
  exact ⟨hidx, (hshown 1 1 (by decide) rfl).2, (hshown 2 0 (by decide) rfl).2⟩

end Posting

end Qunix.Virtio
