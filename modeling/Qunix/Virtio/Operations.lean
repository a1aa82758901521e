/-
Runs of a split virtqueue (`crates/qunix-virtio/src/queue.rs`) under all of its
operations.

Beside the queue stand the chains that were allocated and not freed, as they were
walked when they were allocated. The driver allocates, describes, publishes and
frees; what is ingested into the used ring is the device's, and may be anything.
A caller that keeps to `Held.allowed` describes live descriptors and publishes and
frees live chains only.
-/

import Mathlib.Data.List.Perm.Basic
import Qunix.Lib.Run
import Qunix.Virtio.Chains

namespace Qunix.Virtio

open Function Qunix.Lib

/-- `RING_HEADER` -/
def ringHeader : Nat := 4

namespace SplitQueue

/-- The entry of the used ring in slot `slot` of a copy of its memory. -/
def usedAt (bytes : List UInt8) (slot : Nat) : UsedElem :=
  .ofBytes fun k => bytes.getD (ringHeader + slot * 8 + k) 0

def ingestUsed (q : SplitQueue) (bytes : List UInt8) (idx : Nat) : Option Nat × SplitQueue :=
  if bytes.length < ringHeader + 8 * q.size then (none, q)
  else
    (some idx, { q with
      usedRing := (List.range q.size).foldl (fun ring slot => update ring slot (usedAt bytes slot))
        q.usedRing })

end SplitQueue

inductive Op where
  | allocChain (n : Nat)
  | describe (idx addr len : Nat) (deviceWritable : Bool)
  | publish (head : Nat)
  | freeChain (head : Nat)
  | ingestUsed (bytes : List UInt8) (idx : Nat)
  | ingestUsedSlot (slot : Nat) (bytes : Fin 8 → UInt8)
  | takeUsed (slot : Nat)

/-- A queue and its live chains. -/
structure Held where
  queue : SplitQueue
  live : List (List Nat)

namespace Held

def new (size : Nat) : Held := ⟨.new size, []⟩

/-- `head` names a live chain. -/
def heads (s : Held) (head : Nat) : Bool := s.live.any fun c => c.head? == some head

def apply (s : Held) : Op → Except Panic Held
  | .allocChain n => do
    match ← s.queue.allocChain n with
    | (some head, q) => pure ⟨q, q.chain n head :: s.live⟩
    | (none, q) => pure ⟨q, s.live⟩
  | .describe idx addr len deviceWritable => do
    pure ⟨← s.queue.describe idx addr len deviceWritable, s.live⟩
  | .publish head => do pure ⟨← s.queue.publish head, s.live⟩
  | .freeChain head => do
    pure ⟨← s.queue.freeChain head, s.live.eraseP fun c => c.head? == some head⟩
  | .ingestUsed bytes idx => pure ⟨(s.queue.ingestUsed bytes idx).2, s.live⟩
  | .ingestUsedSlot slot bytes => pure ⟨(s.queue.ingestUsedSlot slot bytes).2, s.live⟩
  | .takeUsed slot => pure ⟨(s.queue.takeUsed slot).2, s.live⟩

/-- What the driver promises. -/
def allowed (s : Held) : Op → Bool
  | .describe idx _ _ _ => s.live.any (idx ∈ ·)
  | .publish head | .freeChain head => s.heads head
  | _ => true

end Held

namespace Held

def step (s : Held) (op : Op) : Option Held := (s.apply op).toOption

end Held

/-! ### What the chains leave alone -/

/-- Nothing but descriptors and the free list changed. -/
structure SplitQueue.SameRings (q q' : SplitQueue) : Prop where
  size : q'.size = q.size
  inFlight : q'.inFlight = q.inFlight
  usedRing : q'.usedRing = q.usedRing

namespace SplitQueue

variable {q q' q₁ : SplitQueue} {idx prev last n : Nat}

/-- The queue `q'` is `q` with other descriptors and another free list. -/
def Rechained (q q' : SplitQueue) : Prop :=
  ∃ desc freeHead free, q' = { q with desc := desc, freeHead := freeHead, free := free }

namespace Rechained

theorem refl (q : SplitQueue) : Rechained q q := ⟨q.desc, q.freeHead, q.free, rfl⟩

theorem trans (h : Rechained q q₁) (h' : Rechained q₁ q') : Rechained q q' := by
  obtain ⟨_, _, _, rfl⟩ := h
  obtain ⟨desc, freeHead, free, rfl⟩ := h'
  exact ⟨desc, freeHead, free, rfl⟩

theorem moved (q : SplitQueue) (freeHead free : Nat) :
    Rechained q { q with freeHead := freeHead, free := free } :=
  ⟨q.desc, freeHead, free, rfl⟩

theorem sameRings (h : Rechained q q') : SameRings q q' := by
  obtain ⟨_, _, _, rfl⟩ := h
  exact ⟨rfl, rfl, rfl⟩

end Rechained

theorem rechained_modify {f : Descriptor → Descriptor} (h : q.modify idx f = .ok q') :
    Rechained q q' := by
  unfold modify at h
  split_ifs at h
  cases h
  exact ⟨_, q.freeHead, q.free, rfl⟩

theorem rechained_allocLoop (h : allocLoop n q prev = .ok (last, q')) : Rechained q q' := by
  induction n generalizing q prev with
  | zero =>
    cases h
    exact .refl _
  | succ n ih =>
    simp only [allocLoop] at h
    split at h
    · cases h
    · obtain ⟨d, -, h⟩ := bind_eq_ok h
      split at h
      · cases h
      · refine (Rechained.moved q d.next (q.free - 1)).trans ?_
        split at h
        · obtain ⟨q₁, hmod, h⟩ := bind_eq_ok h
          exact (rechained_modify hmod).trans (ih h)
        · exact ih h

theorem rechained_allocChain {r : Option Nat} (h : q.allocChain n = .ok (r, q')) :
    Rechained q q' := by
  unfold allocChain at h
  split at h
  · cases h
    exact .refl _
  · obtain ⟨⟨last, q₁⟩, hl, h⟩ := bind_eq_ok h
    obtain ⟨q₂, hmod, h⟩ := bind_eq_ok h
    cases h
    exact (rechained_allocLoop hl).trans (rechained_modify hmod)

theorem rechained_freeLoop (h : freeLoop n q idx = .ok q') : Rechained q q' := by
  induction n generalizing q idx with
  | zero =>
    cases h
    exact .refl _
  | succ n ih =>
    simp only [freeLoop] at h
    obtain ⟨d, -, h⟩ := bind_eq_ok h
    obtain ⟨q₁, hmod, h⟩ := bind_eq_ok h
    refine (rechained_modify hmod).trans ?_
    split at h
    · cases h
    · refine (Rechained.moved q₁ idx (q₁.free + 1)).trans ?_
      split at h
      · exact ih h
      · cases h
        exact .refl _

theorem rechained_freeChain (h : q.freeChain idx = .ok q') :
    ∃ q₁, Rechained q q₁ ∧ q' = { q₁ with inFlight := update q₁.inFlight idx false } := by
  obtain ⟨q₁, hl, h⟩ := bind_eq_ok h
  split_ifs at h
  cases h
  exact ⟨q₁, rechained_freeLoop hl, rfl⟩

theorem freeChain_eq_ok (h : q.freeChain idx = .ok q') :
    q'.size = q.size ∧ q'.inFlight = update q.inFlight idx false ∧ q'.usedRing = q.usedRing := by
  obtain ⟨q₁, hq₁, rfl⟩ := rechained_freeChain h
  have hq₁ := hq₁.sameRings
  exact ⟨hq₁.size, by rw [← hq₁.inFlight], hq₁.usedRing⟩

end SplitQueue

namespace Held

variable {s s' : Held} {op : Op} {c : List Nat} {head : Nat}

/-- The chains in flight after an operation. -/
def flight (s : Held) : Op → Nat → Bool
  | .publish head => update s.queue.inFlight head true
  | .freeChain head => update s.queue.inFlight head false
  | .takeUsed slot =>
    match (s.queue.takeUsed slot).1 with
    | some (head, _) => update s.queue.inFlight head false
    | none => s.queue.inFlight
  | _ => s.queue.inFlight

/-- What an operation does, whether or not it was allowed. -/
structure Effect (s : Held) (op : Op) (s' : Held) : Prop where
  size : s'.queue.size = s.queue.size
  inFlight : s'.queue.inFlight = s.flight op
  live : ∀ c ∈ s.live, c ∈ s'.live ∨ ∃ head, op = .freeChain head ∧ c.head? = some head

theorem apply_effect (h : s.apply op = .ok s') : Effect s op s' := by
  cases op with
  | allocChain n =>
    obtain ⟨⟨r, q⟩, ha, h⟩ := bind_eq_ok h
    have hq := (SplitQueue.rechained_allocChain ha).sameRings
    cases r with
    | none =>
      cases h
      exact ⟨hq.size, hq.inFlight, fun c hc => .inl hc⟩
    | some head =>
      cases h
      exact ⟨hq.size, hq.inFlight, fun c hc => .inl (List.mem_cons_of_mem _ hc)⟩
  | describe idx addr len deviceWritable =>
    obtain ⟨q, hd, h⟩ := bind_eq_ok h
    cases h
    have hq := (SplitQueue.rechained_modify hd).sameRings
    exact ⟨hq.size, hq.inFlight, fun c hc => .inl hc⟩
  | publish head =>
    obtain ⟨q, hp, h⟩ := bind_eq_ok h
    cases h
    unfold SplitQueue.publish at hp
    split_ifs at hp
    cases hp
    exact ⟨rfl, rfl, fun c hc => .inl hc⟩
  | freeChain head =>
    obtain ⟨q, hfr, h⟩ := bind_eq_ok h
    cases h
    obtain ⟨hs, hf, -⟩ := SplitQueue.freeChain_eq_ok hfr
    refine ⟨hs, hf, fun c hc => ?_⟩
    by_cases hh : c.head? = some head
    · exact .inr ⟨head, rfl, hh⟩
    · exact .inl ((List.mem_eraseP_of_neg (by simpa using hh)).mpr hc)
  | ingestUsed bytes idx =>
    cases h
    unfold SplitQueue.ingestUsed
    split <;> exact ⟨rfl, rfl, fun c hc => .inl hc⟩
  | ingestUsedSlot slot bytes =>
    cases h
    unfold SplitQueue.ingestUsedSlot
    split <;> exact ⟨rfl, rfl, fun c hc => .inl hc⟩
  | takeUsed slot =>
    cases h
    refine ⟨?_, ?_, fun c hc => .inl hc⟩
    · simp only [SplitQueue.takeUsed]
      split
      · rfl
      · split <;> rfl
    · simp only [flight, SplitQueue.takeUsed]
      split
      · rfl
      · split <;> rfl

end Held

/-! ### Conservation of descriptors -/

/-- `next_in_chain` leads from each descriptor of a chain to the one after it. -/
theorem SplitQueue.Walks.nextInChain {q : SplitQueue} {l : List Nat} (h : q.Walks l)
    (hlt : ∀ i ∈ l, i < q.size) {k i : Nat} (hk : l[k]? = some i) :
    q.nextInChain i = .ok l[k + 1]? := by
  have hr : ∀ {j : Nat}, j < q.size →
      q.nextInChain j = .ok (if (q.desc j).flags.next then some (q.desc j).next else none) := by
    intro j hj
    simp only [SplitQueue.nextInChain, SplitQueue.read, hj]
    rfl
  induction l generalizing k with
  | nil => cases hk
  | cons a l ih =>
    have ha : a < q.size := hlt a List.mem_cons_self
    cases l with
    | nil =>
      have hl : (q.desc a).flags.next = false := h
      cases k with
      | zero =>
        obtain rfl : a = i := by simpa using hk
        rw [hr ha, hl]
        rfl
      | succ k => simp at hk
    | cons b c =>
      obtain ⟨hm, hn, ht⟩ := h
      have hm : (q.desc a).flags.next = true := hm
      have hn : (q.desc a).next = b := hn
      cases k with
      | zero =>
        obtain rfl : a = i := by simpa using hk
        rw [hr ha, hm, hn]
        rfl
      | succ k => exact ih ht (fun j hj => hlt j (List.mem_cons_of_mem _ hj)) (by simpa using hk)

namespace Held

variable {s s' : Held} {op : Op} {free c : List Nat} {head n : Nat}

theorem heads_iff : s.heads head = true ↔ ∃ c ∈ s.live, c.head? = some head := by
  simp [heads]

theorem split_at_head (h : s.heads head = true) :
    ∃ c rest, s.live.Perm ((head :: c) :: rest) ∧
      s.live.eraseP (fun c => c.head? == some head) = rest := by
  obtain ⟨c, hc, hh⟩ := heads_iff.mp h
  obtain ⟨d, l₁, l₂, -, hd, hs, he⟩ :=
    List.exists_of_eraseP (p := fun c => c.head? == some head) hc (by simpa using hh)
  obtain ⟨d', rfl⟩ : ∃ d', d = head :: d' := by
    cases d with
    | nil => simp at hd
    | cons x d' => exact ⟨d', by simpa using hd⟩
  refine ⟨d', l₁ ++ l₂, ?_, he⟩
  rw [hs]
  exact List.perm_middle

/-- An allocation that fits makes a chain of as many descriptors as were asked
for. -/
theorem apply_allocChain (hl : Laid s.queue free s.live) (hn : 0 < n) (hle : n ≤ s.queue.free) :
    ∃ head q rest, s.queue.allocChain n = .ok (some head, q) ∧
      (q.chain n head).length = n ∧ (q.chain n head).head? = some head ∧
      Laid q rest (q.chain n head :: s.live) := by
  obtain ⟨a, c, rest, d, fh, -, hlen, ha, hl'⟩ := hl.allocChain hn (hl.count ▸ hle)
  have hc := SplitQueue.chain_eq (hl'.walks _ List.mem_cons_self) (Nat.le_of_eq hlen)
  refine ⟨a, _, rest, ha, ?_, ?_, ?_⟩
  · rw [hc, hlen]
  · rw [hc]
    rfl
  · rw [hc]
    exact hl'

theorem allocChain_refused (h : ¬ (0 < n ∧ n ≤ s.queue.free)) :
    s.queue.allocChain n = .ok (none, s.queue) := by
  unfold SplitQueue.allocChain
  rw [if_pos (by omega)]

/-- An operation within the promise returns, and leaves every descriptor on the
free list or in one live chain. -/
theorem apply_laid (hl : Laid s.queue free s.live) (ha : s.allowed op = true) :
    ∃ s' free', s.apply op = .ok s' ∧ Laid s'.queue free' s'.live := by
  cases op with
  | allocChain n =>
    by_cases hn : 0 < n ∧ n ≤ s.queue.free
    · obtain ⟨head, q, rest, hal, -, -, hl'⟩ := apply_allocChain hl hn.1 hn.2
      exact ⟨_, rest, by simp only [apply, hal]; rfl, hl'⟩
    · exact ⟨s, free, by simp only [apply, allocChain_refused hn]; rfl, hl⟩
  | describe idx addr len deviceWritable =>
    obtain ⟨c, hc, hidx⟩ := List.any_eq_true.mp ha
    obtain ⟨d, hd, hl', -⟩ := hl.describe (hl.lt_of_chain hc (by simpa using hidx)) addr len
      deviceWritable
    exact ⟨⟨_, s.live⟩, free, by simp only [apply, hd]; rfl, hl'⟩
  | publish head =>
    obtain ⟨c, hc, hh⟩ := heads_iff.mp ha
    have hlt := hl.lt_of_chain hc (List.mem_of_mem_head? hh)
    refine ⟨⟨{ s.queue with
        inFlight := update s.queue.inFlight head true
        availRing := update s.queue.availRing (s.queue.availIdx % s.queue.size) head
        availIdx := (s.queue.availIdx + 1) % 2 ^ 16 }, s.live⟩, free, ?_,
      hl.of_desc_eq rfl rfl rfl rfl⟩
    simp only [apply, SplitQueue.publish, hlt]
    rfl
  | freeChain head =>
    obtain ⟨c, rest, hp, he⟩ := split_at_head ha
    obtain ⟨d, fh, hf, hl'⟩ := (hl.reorder hp.symm).freeChain
    exact ⟨⟨_, rest⟩, _, by simp only [apply, hf, he]; rfl, hl'⟩
  | ingestUsed bytes idx =>
    refine ⟨_, free, rfl, ?_⟩
    unfold SplitQueue.ingestUsed
    split
    · exact hl
    · exact hl.of_desc_eq rfl rfl rfl rfl
  | ingestUsedSlot slot bytes =>
    refine ⟨_, free, rfl, ?_⟩
    unfold SplitQueue.ingestUsedSlot
    split
    · exact hl.of_desc_eq rfl rfl rfl rfl
    · exact hl
  | takeUsed slot =>
    refine ⟨_, free, rfl, ?_⟩
    simp only [SplitQueue.takeUsed]
    split
    · exact hl
    · split
      · exact hl
      · exact hl.of_desc_eq rfl rfl rfl rfl

/-- What holds of a queue of `size` descriptors whose driver kept its promise. -/
structure Conserved (size : Nat) (s : Held) : Prop where
  /-- No call panics. -/
  returns : ∀ op, s.allowed op = true → ∃ s', s.apply op = .ok s'
  /-- Every descriptor is on the free list once or in one live chain. -/
  once : ∃ free, Links (fun i => (s.queue.desc i).next) s.queue.freeHead free nil ∧
    s.queue.free = free.length ∧ (free ++ s.live.flatten).Perm (List.range size)
  walked : ∀ l ∈ s.live, l.Nodup ∧
    ∀ k i, l[k]? = some i → s.queue.nextInChain i = .ok l[k + 1]?
  /-- A live chain stays as it is until it is freed. -/
  kept : ∀ c ∈ s.live, ∀ op s', s.apply op = .ok s' →
    c ∈ s'.live ∨ ∃ head, op = .freeChain head ∧ c.head? = some head
  alloc : ∀ n, 0 < n → n ≤ s.queue.free → ∃ head q, s.queue.allocChain n = .ok (some head, q) ∧
    (q.chain n head).length = n ∧ (q.chain n head).head? = some head ∧
    s.apply (.allocChain n) = .ok ⟨q, q.chain n head :: s.live⟩
  refused : ∀ n, ¬ (0 < n ∧ n ≤ s.queue.free) → s.queue.allocChain n = .ok (none, s.queue)

theorem Conserved.of_laid (hl : Laid s.queue free s.live) : Conserved s.queue.size s where
  returns op ha := by
    obtain ⟨s', _, hs', -⟩ := apply_laid hl ha
    exact ⟨s', hs'⟩
  once := ⟨free, hl.links, hl.count, hl.perm⟩
  walked c hc := by
    refine ⟨?_, fun k i hk => (hl.walks c hc).nextInChain (fun i hi => hl.lt_of_chain hc hi) hk⟩
    have := (List.nodup_append.mp hl.nodup).2.1
    exact (List.nodup_flatten.mp this).1 c hc
  kept c hc op s' h := (apply_effect h).live c hc
  alloc n hn hle := by
    obtain ⟨head, q, rest, hal, hlen, hh, -⟩ := apply_allocChain hl hn hle
    exact ⟨head, q, hal, hlen, hh, by simp only [apply, hal]; rfl⟩
  refused n hn := allocChain_refused hn

/-- Descriptors are neither lost nor handed out twice, whatever the device writes
into the used ring. -/
theorem descriptors_conserved {k : Nat} (hk : 2 ^ k < 2 ^ 16) {ops : List Op}
    (hrun : Run (fun s op s' => step s op = some s' ∧ s.allowed op = true) (new (2 ^ k)) ops s) :
    Conserved (2 ^ k) s := by
  have hsize : 2 ^ k ≤ 2 ^ 15 := by
    have := (Nat.pow_lt_pow_iff_right (by decide)).mp hk
    exact Nat.pow_le_pow_right (by decide) (by omega)
  have hinv : s.queue.size = 2 ^ k ∧ ∃ free, Laid s.queue free s.live := by
    refine hrun.invariant (p := fun s => s.queue.size = 2 ^ k ∧ ∃ free, Laid s.queue free s.live)
      ?_ ⟨rfl, _, Laid.new (Nat.two_pow_pos k) hsize⟩
    rintro s op s' ⟨hs, free, hl⟩ ⟨hst, ha⟩
    obtain ⟨s'', free', hs'', hl'⟩ := apply_laid hl ha
    obtain rfl : s'' = s' := Except.ok.inj (hs''.symm.trans (ok_of_toOption hst))
    exact ⟨(apply_effect hs'').size.trans hs, free', hl'⟩
  obtain ⟨hs, free, hl⟩ := hinv
  exact hs ▸ Conserved.of_laid hl

/-- Two chains freed out of order, and a forged completion between. -/
theorem descriptors_conserved_reordered :
    ∃ s : Held, Run (fun s op s' => step s op = some s' ∧ s.allowed op = true) (new (2 ^ 3))
        [.allocChain 3, .allocChain 2, .publish 3, .ingestUsedSlot 0 fun _ => 0, .takeUsed 0,
          .freeChain 0, .allocChain 4] s ∧
      s.live = [[2, 1, 0, 5], [3, 4]] ∧ Conserved (2 ^ 3) s := by
  refine exists_run_of_exec_guarded (by decide +kernel) fun s hrun hlive => ⟨hlive, ?_⟩
  exact descriptors_conserved (by decide) hrun

/-! ### Completions -/

inductive Event where
  /-- `publish`; the flag says whether the head named a live chain. -/
  | published (head : Nat) (live : Bool)
  /-- `take_used` returned the head. -/
  | taken (head : Nat)
  | freed (head : Nat)
deriving DecidableEq, Repr

def event (s : Held) (op : Op) (_ : Held) : Option Event :=
  match op with
  | .publish head => some (.published head (s.heads head))
  | .freeChain head => some (.freed head)
  | .takeUsed slot => (s.queue.takeUsed slot).1.map fun r => .taken r.1
  | _ => none

/-- The head was published, and neither completed nor freed since. A live chain
that was published is live still. -/
def Outstanding (s : Held) (log : List Event) (head : Nat) : Prop :=
  ∃ live later, Since (.published head live) later log ∧ .taken head ∉ later ∧
    .freed head ∉ later ∧ (live = true → s.heads head = true)

variable {log : List Event}

theorem takeUsed_inFlight {slot len : Nat} {q : SplitQueue}
    (h : s.queue.takeUsed slot = (some (head, len), q)) : s.queue.inFlight head = true := by
  simp only [SplitQueue.takeUsed] at h
  split at h
  · cases h
  · split_ifs at h with hf
    · cases h
    · cases h
      simpa using hf

theorem event_taken (h : s.event op s' = some (.taken head)) : s.queue.inFlight head = true := by
  cases op with
  | takeUsed slot =>
    obtain ⟨⟨head', len⟩, ht, heq⟩ := Option.map_eq_some_iff.mp h
    cases heq
    exact takeUsed_inFlight (Prod.ext ht rfl)
  | publish | freeChain | allocChain | describe | ingestUsed | ingestUsedSlot => cases h

theorem Outstanding.extend {e : Option Event} (h : Outstanding s log head)
    (he : ∀ d ∈ e, d ≠ .taken head ∧ d ≠ .freed head)
    (hh : s.heads head = true → s'.heads head = true) :
    Outstanding s' (e.toList ++ log) head := by
  obtain ⟨live, later, hs, ht, hf, hl⟩ := h
  refine ⟨live, e.toList ++ later, since_toList_append.mpr (.inr ⟨later, rfl, hs⟩), ?_, ?_,
    fun h => hh (hl h)⟩
  · rw [List.mem_append, not_or]
    exact ⟨fun hmem => (he _ (Option.mem_toList.mp hmem)).1 rfl, ht⟩
  · rw [List.mem_append, not_or]
    exact ⟨fun hmem => (he _ (Option.mem_toList.mp hmem)).2 rfl, hf⟩

/-- What is in flight after a step was in flight before it, and the step was
neither its completion nor its end; or it was published by the step. -/
theorem flight_cases (s' : Held) (h : s.flight op head = true) :
    op = .publish head ∨
      (s.queue.inFlight head = true ∧ ∀ d ∈ s.event op s', d ≠ .taken head ∧ d ≠ .freed head) := by
  cases op with
  | publish h' =>
    by_cases hh : h' = head
    · exact .inl (by rw [hh])
    · rw [flight, update_of_ne (Ne.symm hh)] at h
      exact .inr ⟨h, by simp [event]⟩
  | freeChain h' =>
    by_cases hh : h' = head
    · simp [flight, hh] at h
    · rw [flight, update_of_ne (Ne.symm hh)] at h
      exact .inr ⟨h, by simp [event, hh]⟩
  | takeUsed slot =>
    right
    simp only [flight] at h
    simp only [event]
    cases ht : (s.queue.takeUsed slot).1 with
    | none =>
      rw [ht] at h
      exact ⟨h, by simp⟩
    | some r =>
      obtain ⟨h', len⟩ := r
      rw [ht] at h
      by_cases hh : h' = head
      · simp [hh] at h
      · simp only [update_of_ne (Ne.symm hh)] at h
        exact ⟨h, by simp [hh]⟩
  | allocChain | describe | ingestUsed | ingestUsedSlot => exact .inr ⟨h, nofun⟩

theorem heads_kept (he : Effect s op s') (hop : op ≠ .freeChain head) (h : s.heads head = true) :
    s'.heads head = true := by
  obtain ⟨c, hc, hh⟩ := heads_iff.mp h
  rcases he.live c hc with hc' | ⟨head', rfl, hh'⟩
  · exact heads_iff.mpr ⟨c, hc', hh⟩
  · rw [hh] at hh'
    exact absurd (congrArg _ (Option.some.inj hh').symm) hop

theorem outstanding_step (h : s.apply op = .ok s')
    (hinv : ∀ head, s.queue.inFlight head = true → Outstanding s log head)
    (hf : s'.queue.inFlight head = true) :
    Outstanding s' ((s.event op s').toList ++ log) head := by
  have he := apply_effect h
  rw [he.inFlight] at hf
  rcases flight_cases s' hf with rfl | ⟨hb, hev⟩
  · exact ⟨s.heads head, [], since_toList_append.mpr (.inl ⟨rfl, rfl⟩), by simp, by simp,
      heads_kept he nofun⟩
  · refine (hinv head hb).extend hev (heads_kept he ?_)
    rintro rfl
    exact (hev _ rfl).2 rfl

/-- Whatever the device writes into the used ring, `take_used` completes a chain
only after it was published, once for each time it was, and never after it was
freed. -/
theorem completions_not_forged {size : Nat} {ops : List Op}
    (hrun : Run (Logged (fun s op s' => step s op = some s') event) (new size, []) ops (s, log)) :
    (∀ slot head len q, s.queue.takeUsed slot = (some (head, len), q) → Outstanding s log head) ∧
    (∀ head l₁ l₂ l₃, log = l₁ ++ .taken head :: (l₂ ++ .taken head :: l₃) →
      ∃ live, .published head live ∈ l₂) ∧
    ∀ slot, s.queue.size ≤ (s.queue.usedRing (slot % s.queue.size)).id →
      s.queue.takeUsed slot = (none, s.queue) := by
  have hinv : (∀ head, s.queue.inFlight head = true → Outstanding s log head) ∧
      ∀ head l₁ l₂ l₃, log = l₁ ++ .taken head :: (l₂ ++ .taken head :: l₃) →
        ∃ live, .published head live ∈ l₂ := by
    refine hrun.invariant (p := fun p : Held × List Event =>
      (∀ head, p.1.queue.inFlight head = true → Outstanding p.1 p.2 head) ∧
        ∀ head l₁ l₂ l₃, p.2 = l₁ ++ .taken head :: (l₂ ++ .taken head :: l₃) →
          ∃ live, .published head live ∈ l₂) ?_ ⟨nofun, by simp⟩
    rintro ⟨s, log⟩ op ⟨s', log'⟩ ⟨hflight, halt⟩ ⟨hst, hlog⟩
    have happly := ok_of_toOption hst
    rw [hlog]
    refine ⟨fun head h => outstanding_step happly hflight h, fun head l₁ l₂ l₃ heq => ?_⟩
    cases hev : s.event op s' with
    | none =>
      rw [hev] at heq
      exact halt head l₁ l₂ l₃ heq
    | some e =>
      rw [hev] at heq
      cases l₁ with
      | cons d l₁ => exact halt head l₁ l₂ l₃ (List.cons.inj heq).2
      | nil =>
        -- This step is the later success: its head was in flight.
        obtain ⟨rfl, hrest⟩ := List.cons.inj heq
        obtain ⟨live, later, hsince, htaken, -, -⟩ := hflight head (event_taken hev)
        exact ⟨live, hsince.mem_of_not_mem htaken nofun hrest⟩
  refine ⟨fun slot head len q h => hinv.1 head (takeUsed_inFlight h), hinv.2, fun slot hid => ?_⟩
  simp [SplitQueue.takeUsed, hid]

/-- A chain completed twice, with its second publish between, and published once
more. -/
theorem completions_not_forged_republished :
    ∃ p : Held × List Event, Run (Logged (fun s op s' => step s op = some s') event) (new 4, [])
        [.allocChain 3, .publish 0, .ingestUsedSlot 0 fun _ => 0, .takeUsed 0, .takeUsed 0,
          .publish 0, .takeUsed 4, .publish 0] p ∧
      p.2 = [.published 0 true, .taken 0, .published 0 true, .taken 0, .published 0 true] ∧
      Outstanding p.1 p.2 0 := by
  refine exists_run (fun _ _ _ => logged_of_logging)
    (p := fun p : Held × List Event =>
      p.2 = [.published 0 true, .taken 0, .published 0 true, .taken 0, .published 0 true] ∧
        (p.1.queue.takeUsed 0).1 = some (0, 0))
    (by decide +kernel) fun p hrun hfacts => ?_
  obtain ⟨hlog, htake⟩ := hfacts
  exact ⟨hlog, (completions_not_forged hrun).1 0 0 0 _ (Prod.ext htake rfl)⟩

/-- `publish` takes its caller's word: a descriptor of no chain is published, and
completes. -/
theorem completed_without_chain :
    ∃ s : Held, Run (fun s op s' => step s op = some s') (new 4) [.publish 0] s ∧
      (s.queue.takeUsed 0).1 = some (0, 0) ∧ s.heads 0 = false :=
  exists_run_of_exec (by decide +kernel) fun _ _ hfacts => hfacts

end Held

end Qunix.Virtio
