/-
Who owns a chain of the block driver.

A chain is live from `submit` until it is freed. While it is live its slot says
how it stands: it is in flight until its completion was taken (`done`), and it
belongs to the call that submitted it until that call gave it up (`abandoned`).
Each section of the driver keeps this (`Owned`), and only a chain that is not in
flight is freed.
-/

import Qunix.Block.Calls
import Qunix.Virtio.Chains

namespace Qunix.Block

open Function Qunix.Virtio Qunix.Lib
open Qunix.BufferCache (Bytes BlkStatus BlockError)

def Request.header (r : Request) : RequestHeader :=
  ⟨if r.out.isSome then .write else .read, r.lba⟩

/-- The lengths `submit` takes. -/
def Request.Fits (r : Request) : Prop :=
  r.len ≠ 0 ∧ r.len % sectorBytes = 0 ∧ r.len ≤ maxSectors * sectorBytes

/-- The queue `q'` describes the request by the chain `h`, `x`, `y`, which is the
last one made available. -/
structure Published (blk : Blk) (r : Request) (q q' : SplitQueue) (h x y : Nat) : Prop where
  header : q'.desc h = ⟨blk.headerPhys h, RequestHeader.bytes, ⟨true, false⟩, x⟩
  data : q'.desc x = ⟨blk.bouncePhys h, r.len, ⟨true, r.out.isNone⟩, y⟩
  status : ∃ next, q'.desc y = ⟨blk.statusPhys h, 1, ⟨false, true⟩, next⟩
  availIdx : q'.availIdx = (q.availIdx + 1) % 2 ^ 16
  availRing : q'.availRing (q.availIdx % q.size) = h

theorem publishRequest_eq (blk : Blk) {q : SplitQueue} {free : List Nat} {chains : List (List Nat)}
    {h x y : Nat} (hl : Laid q free ([h, x, y] :: chains)) (r : Request) :
    ∃ q', blk.publishRequest q h r = .ok (blk.record q' h r) ∧ q'.size = q.size ∧
      q'.inFlight = update q.inFlight h true ∧ Laid q' free ([h, x, y] :: chains) ∧
      Published blk r q q' h x y := by
  have hmi : [h, x, y] ∈ [h, x, y] :: chains := List.mem_cons_self
  have hlt : ∀ i ∈ [h, x, y], i < q.size := fun i hi => hl.lt_of_chain hmi hi
  obtain ⟨hm, hn, hm', hn', hla⟩ := hl.walks _ hmi
  have hla : (q.desc y).flags.next = false := hla
  have hno : [h, x, y].Nodup :=
    (List.nodup_append.mp (List.nodup_append.mp hl.nodup).2.1).1
  obtain ⟨hhx, hhy, hxy⟩ : h ≠ x ∧ h ≠ y ∧ x ≠ y := by
    simpa [and_assoc] using hno
  have hh : h < q.size := hlt h (by simp)
  have hx : x < q.size := hlt x (by simp)
  obtain ⟨d₁, hd₁, hl₁, he₁⟩ :=
    hl.describe (hlt h (by simp)) (blk.headerPhys h) RequestHeader.bytes false
  obtain ⟨d₂, hd₂, hl₂, he₂⟩ := hl₁.describe (hlt x (by simp)) (blk.bouncePhys h) r.len r.out.isNone
  obtain ⟨d₃, hd₃, hl₃, he₃⟩ := hl₂.describe (hlt y (by simp)) (blk.statusPhys h) 1 true
  refine ⟨{ q with
    desc := d₃
    inFlight := update q.inFlight h true
    availRing := update q.availRing (q.availIdx % q.size) h
    availIdx := (q.availIdx + 1) % 2 ^ 16 }, ?_, rfl, rfl, hl₃.of_desc_eq rfl rfl rfl rfl, ?_⟩
  · simp only [Blk.publishRequest, SplitQueue.nextInChain, SplitQueue.read, hh, hx, if_true, hm,
      hn, hm', hn', expect, bind, Except.bind, pure, Except.pure, hd₁, hd₂, hd₃,
      SplitQueue.publish]
  · refine ⟨?_, ?_, ⟨(q.desc y).next, ?_⟩, rfl, update_self ..⟩
    · simp [he₃, he₂, he₁, update_of_ne hhx, update_of_ne hhy, hm, hn]
    · simp [he₃, he₂, he₁, update_of_ne hxy, update_of_ne hhx.symm, hm', hn']
    · simp [he₃, he₂, he₁, update_of_ne hxy.symm, update_of_ne hhy.symm, hla]

/-- The driver after the handler has read an entry of the used ring. -/
def Blk.ingest (blk : Blk) (d : DeviceInput) (k : Nat) : Blk :=
  { blk with
    queue := { blk.queue with
      usedRing := update blk.queue.usedRing (blk.lastUsed % queueSize) (.ofBytes (d.entries k)) } }

/-- The free descriptors, the live chains and the slots of the driver fit. -/
structure Owned (blk : Blk) (free : List Nat) (chains : List (List Nat)) : Prop where
  laid : Laid blk.queue free chains
  size : blk.queue.size = queueSize
  three : ∀ c ∈ chains, c.length = 3
  slot : ∀ h, (∃ sl, blk.slots h = some sl) ↔ ∃ c ∈ chains, c.head? = some h
  flight : ∀ h sl, blk.slots h = some sl → blk.queue.inFlight h = !sl.done
  live : ∀ h, blk.queue.inFlight h = true → ∃ sl, blk.slots h = some sl

namespace Owned

variable {blk : Blk} {free c : List Nat} {chains : List (List Nat)} {h : Nat} {sl : Slot}

theorem boot (metaPhys dataPhys : Nat) (bounce : Nat → Bytes) :
    Owned (.new metaPhys dataPhys bounce) (List.range queueSize) [] where
  laid := .new (by decide) (by decide)
  size := rfl
  three _ hc := nomatch hc
  slot h := by simp [Blk.new]
  flight h sl hsl := nomatch hsl
  live h hl := nomatch hl

section

variable (o : Owned blk free chains)

include o

theorem chain_of_slot (hsl : blk.slots h = some sl) :
    ∃ c, h :: c ∈ chains := by
  obtain ⟨c, hc, hh⟩ := (o.slot h).mp ⟨sl, hsl⟩
  cases c with
  | nil => cases hh
  | cons a c =>
    cases hh
    exact ⟨c, hc⟩

theorem reorder {chains' : List (List Nat)} (hp : chains'.Perm chains) :
    Owned blk free chains' where
  laid := o.laid.reorder hp
  size := o.size
  three c hc := o.three c (hp.mem_iff.mp hc)
  slot h := by simp [o.slot, hp.mem_iff]
  flight := o.flight
  live := o.live

theorem front (hsl : blk.slots h = some sl) :
    ∃ c chains', ((h :: c) :: chains').Perm chains ∧ Owned blk free ((h :: c) :: chains') := by
  obtain ⟨c, hc⟩ := o.chain_of_slot hsl
  have hp := (List.perm_cons_erase hc).symm
  exact ⟨c, chains.erase (h :: c), hp, o.reorder hp⟩

theorem lt_of_slot (hsl : blk.slots h = some sl) : h < queueSize := by
  obtain ⟨c, hc⟩ := o.chain_of_slot hsl
  rw [← o.size]
  exact o.laid.lt_of_chain hc List.mem_cons_self

theorem recorded {q : SplitQueue} {rest : List Nat} {x y : Nat}
    {r : Request} (hl : Laid q rest ([h, x, y] :: chains)) (hs : q.size = queueSize)
    (hf : q.inFlight = update blk.queue.inFlight h true) :
    Owned (blk.record q h r) rest ([h, x, y] :: chains) where
  laid := hl
  size := hs
  three c hc := by
    rcases List.mem_cons.mp hc with rfl | hc
    · rfl
    · exact o.three c hc
  slot k := by
    by_cases hk : k = h
    · simp [Blk.record, hk]
    · simp [Blk.record, hk, Ne.symm hk, o.slot]
  flight k sl hsl := by
    by_cases hk : k = h
    · rw [hk, Blk.record] at hsl
      simp only [update_self, Option.some.injEq] at hsl
      simp [Blk.record, hf, hk, ← hsl]
    · simp only [Blk.record, update_of_ne hk] at hsl
      simpa [Blk.record, hf, update_of_ne hk] using o.flight k sl hsl
  live k hk := by
    by_cases hkh : k = h
    · simp [Blk.record, hkh]
    · simp only [Blk.record, hf, update_of_ne hkh] at hk ⊢
      exact o.live k hk

/-- A request is refused, or gets a chain off the free list. -/
theorem submit (r : Request) :
    (∃ e, blk.submit r = .ok (.error e, blk) ∧ ¬ (r.Fits ∧ 3 ≤ free.length)) ∨
      ∃ h c rest q, free = h :: c ++ rest ∧ blk.submit r = .ok (.ok h, blk.record q h r) ∧
        q.inFlight = update blk.queue.inFlight h true ∧
        Owned (blk.record q h r) rest ((h :: c) :: chains) ∧
        r.Fits ∧ ∃ x y, c = [x, y] ∧ Published blk r blk.queue q h x y := by
  unfold Blk.submit
  split
  · rename_i hodd
    exact .inl ⟨_, rfl, fun hf => hodd.elim hf.1.1 (absurd hf.1.2.1)⟩
  · rename_i hw
    split
    · exact .inl ⟨_, rfl, fun hf => absurd hf.1.2.2 (by omega)⟩
    · by_cases hr : free.length < 3
      · refine .inl ⟨.queueFull, ?_, fun hf => absurd hf.2 (by omega)⟩
        have hn : blk.queue.allocChain 3 = .ok (none, blk.queue) :=
          if_pos (.inr (by rw [o.laid.count]; exact hr))
        rw [hn]
        rfl
      · obtain ⟨h, c, rest, d, fh, hs, hlen, ha, hl⟩ :=
          o.laid.allocChain (n := 3) (by decide) (by omega)
        obtain ⟨x, y, rfl⟩ : ∃ x y, c = [x, y] := by
          match c, hlen with
          | [x, y], _ => exact ⟨x, y, rfl⟩
        obtain ⟨q, hp, hsi, hfl, hl', hpub⟩ := publishRequest_eq blk hl r
        refine .inr ⟨h, [x, y], rest, q, hs, ?_, hfl, ?_, ?_, x, y, rfl, ?_⟩
        · simp only [ha, bind, Except.bind, hp]
          rfl
        · exact o.recorded hl' (hsi.trans o.size) hfl
        · push Not at hw
          exact ⟨hw.1, hw.2, by omega⟩
        · exact ⟨hpub.header, hpub.data, hpub.status, hpub.availIdx, hpub.availRing⟩

end

/-- A chain is freed, and its slot is empty; whether it was in flight does not
matter to `free_chain`. -/
theorem release_of_flight (o : Owned blk free ((h :: c) :: chains)) {f : Nat → Bool}
    (hf : ∀ k, k ≠ h → f k = blk.queue.inFlight k) :
    ∃ q, { blk with queue := { blk.queue with inFlight := f } }.release h =
        .ok { blk with queue := q, slots := update blk.slots h none } ∧
      q.inFlight = update blk.queue.inFlight h false ∧ q.availIdx = blk.queue.availIdx ∧
      Owned { blk with queue := q, slots := update blk.slots h none } ((h :: c).reverse ++ free)
        chains := by
  have hl₀ : Laid { blk.queue with inFlight := f } free ((h :: c) :: chains) :=
    o.laid.of_desc_eq rfl rfl rfl rfl
  obtain ⟨d, fh, hfr, hl⟩ := hl₀.freeChain
  have hfl : update f h false = update blk.queue.inFlight h false := by
    funext k
    by_cases hk : k = h
    · rw [hk, update_self, update_self]
    · rw [update_of_ne hk, update_of_ne hk, hf k hk]
  refine ⟨_, by simp only [Blk.release, hfr]; rfl, hfl, by rfl, hl, o.size,
    fun c hc => o.three c (List.mem_cons_of_mem _ hc), fun k => ?_, fun k sl hsl => ?_,
    fun k hk => ?_⟩
  · by_cases hkh : k = h
    · simp only [hkh, update_self, reduceCtorEq, exists_false, false_iff]
      rintro ⟨c', hc', hh⟩
      exact o.laid.not_mem_of_chain List.mem_cons_self hc' (List.mem_of_mem_head? hh)
    · simp only [update_of_ne hkh, o.slot]
      constructor
      · rintro ⟨c', hc', hh⟩
        rcases List.mem_cons.mp hc' with rfl | hc'
        · exact absurd (Option.some.inj hh).symm hkh
        · exact ⟨c', hc', hh⟩
      · rintro ⟨c', hc', hh⟩
        exact ⟨c', List.mem_cons_of_mem _ hc', hh⟩
  · by_cases hkh : k = h
    · simp [hkh] at hsl
    · simp only [update_of_ne hkh] at hsl ⊢
      rw [hf k hkh]
      exact o.flight k sl hsl
  · by_cases hkh : k = h
    · simp [hkh] at hk
    · simp only [update_of_ne hkh] at hk ⊢
      exact o.live k (hf k hkh ▸ hk)

theorem release (o : Owned blk free ((h :: c) :: chains)) :
    ∃ q, blk.release h = .ok { blk with queue := q, slots := update blk.slots h none } ∧
      q.inFlight = update blk.queue.inFlight h false ∧ q.availIdx = blk.queue.availIdx ∧
      Owned { blk with queue := q, slots := update blk.slots h none } ((h :: c).reverse ++ free)
        chains :=
  o.release_of_flight fun _ _ => rfl

section

variable (o : Owned blk free chains)

include o

/-- The slots say as before which chains are live, and which are done. -/
theorem of_done_eq {blk' : Blk} (hl : Laid blk'.queue free chains)
    (hsi : blk'.queue.size = blk.queue.size)
    (hf : blk'.queue.inFlight = blk.queue.inFlight)
    (hd : ∀ k, (blk'.slots k).map Slot.done = (blk.slots k).map Slot.done) :
    Owned blk' free chains := by
  have hs : ∀ k, (∃ sl, blk'.slots k = some sl) ↔ ∃ sl, blk.slots k = some sl := by
    intro k
    simp only [← Option.isSome_iff_exists]
    rw [← Option.isSome_map, hd, Option.isSome_map]
  refine ⟨hl, hsi.trans o.size, o.three, fun k => (hs k).trans (o.slot k),
    fun k sl hsl => ?_, fun k hk => (hs k).mpr (o.live k (hf ▸ hk))⟩
  obtain ⟨sl', hsl'⟩ := (hs k).mp ⟨sl, hsl⟩
  have := hd k
  rw [hsl, hsl', Option.map_some, Option.map_some, Option.some.injEq] at this
  rw [hf, this]
  exact o.flight k sl' hsl'

theorem abandon (h : Nat) : Owned (blk.abandon h) free chains := by
  refine o.of_done_eq o.laid rfl rfl fun k => ?_
  by_cases hk : k = h
  · simp [Blk.abandon, hk, Function.comp_def]
  · simp [Blk.abandon, update_of_ne hk]

theorem ingest (d : DeviceInput) (k : Nat) :
    Owned (blk.ingest d k) free chains :=
  o.of_done_eq (o.laid.of_desc_eq rfl rfl rfl rfl) rfl rfl fun _ => rfl

theorem clocked :
    Owned { blk with lastUsed := (blk.lastUsed + 1) % 2 ^ 16 } free chains :=
  o.of_done_eq o.laid rfl rfl fun _ => rfl

end

end Owned

/-! ### Completions -/

namespace Blk

variable {blk : Blk} {h slot : Nat} {status : UInt8}

/-- A completion is recorded in the slot of its head. -/
def landed (blk : Blk) (h : Nat) (sl : Slot) (status : UInt8) (len : Nat) : Blk :=
  { blk with
    queue := { blk.queue with inFlight := update blk.queue.inFlight h false }
    slots := update blk.slots h (some { sl with done := true, status := status, len := len }) }

theorem takeUsed_eq (q : SplitQueue) (slot : Nat) :
    q.takeUsed slot = (none, q) ∨
      ∃ h len, h < q.size ∧ q.inFlight h = true ∧
        q.usedRing (slot % q.size) = ⟨h, len⟩ ∧
        q.takeUsed slot = (some (h, len), { q with inFlight := update q.inFlight h false }) := by
  unfold SplitQueue.takeUsed
  simp only
  split
  · exact .inl rfl
  · rename_i hlt
    split
    · exact .inl rfl
    · rename_i hf
      exact .inr ⟨_, _, not_le.mp hlt, by simpa using hf, rfl, rfl⟩

end Blk

namespace Owned

variable {blk : Blk} {free c : List Nat} {chains : List (List Nat)} {h : Nat} {sl : Slot}

theorem landed (o : Owned blk free chains) (hsl : blk.slots h = some sl) (status : UInt8)
    (len : Nat) : Owned (blk.landed h sl status len) free chains := by
  refine ⟨o.laid.of_desc_eq rfl rfl rfl rfl, o.size, o.three, fun k => ?_, fun k sl' hsl' => ?_,
    fun k hk => ?_⟩
  · rw [← o.slot k]
    by_cases hk : k = h
    · simp [Blk.landed, hk, hsl]
    · simp [Blk.landed, update_of_ne hk]
  · by_cases hk : k = h
    · simp only [Blk.landed, hk, update_self, Option.some.injEq] at hsl' ⊢
      simp [← hsl']
    · simp only [Blk.landed, update_of_ne hk] at hsl' ⊢
      exact o.flight k sl' hsl'
  · by_cases hkh : k = h
    · simp [Blk.landed, hkh]
    · simp only [Blk.landed, update_of_ne hkh] at hk ⊢
      exact o.live k hk

variable {slot len : Nat}

variable (o : Owned blk free chains)

include o

theorem takeUsed_of_flight
    (he : blk.queue.usedRing (slot % blk.queue.size) = ⟨h, len⟩)
    (hf : blk.queue.inFlight h = true) :
    blk.queue.takeUsed slot =
      (some (h, len), { blk.queue with inFlight := update blk.queue.inFlight h false }) := by
  obtain ⟨sl, hsl⟩ := o.live h hf
  have hlt : ¬ blk.queue.size ≤ h := by
    rw [o.size, Nat.not_le]
    exact o.lt_of_slot hsl
  simp [SplitQueue.takeUsed, he, hf, hlt]

/-- The completion of a chain in flight is recorded in its slot, or is the end of an
abandoned chain. -/
theorem take_of_flight (status : UInt8)
    (he : blk.queue.usedRing (slot % blk.queue.size) = ⟨h, len⟩)
    (hf : blk.queue.inFlight h = true) :
    ∃ sl, blk.slots h = some sl ∧
      ((sl.abandoned = false ∧
          blk.take slot status = .ok (some h, blk.landed h sl status len) ∧
          Owned (blk.landed h sl status len) free chains) ∨
        (sl.abandoned = true ∧ ∃ q c chains',
          blk.take slot status =
            .ok (some h, { blk with queue := q, slots := update blk.slots h none }) ∧
          q.inFlight = update blk.queue.inFlight h false ∧
          ((h :: c) :: chains').Perm chains ∧
          Owned { blk with queue := q, slots := update blk.slots h none }
            ((h :: c).reverse ++ free) chains')) := by
  obtain ⟨sl, hsl⟩ := o.live h hf
  refine ⟨sl, hsl, ?_⟩
  unfold Blk.take
  rw [o.takeUsed_of_flight he hf]
  simp only [hsl]
  by_cases ha : sl.abandoned = true
  · obtain ⟨c, chains', hp, o'⟩ := o.front hsl
    obtain ⟨q, hr, hq, -, o''⟩ := o'.release_of_flight
      (f := update blk.queue.inFlight h false) fun k hk => update_of_ne hk ..
    refine .inr ⟨ha, q, c, chains', ?_, hq, hp, o''⟩
    simp only [ha, hr]
    rfl
  · refine .inl ⟨by simpa using ha, ?_, o.landed hsl status len⟩
    rw [if_neg ha]
    rfl

end Owned

/-- What a run of the completion handler over `n` entries does to the driver: it
takes the heads in the list, one after the other. -/
inductive Handled (d : DeviceInput) (n : Nat) :
    Blk → List (List Nat) → List Nat → Blk → List (List Nat) → Prop where
  | nil (blk : Blk) (chains : List (List Nat)) : Handled d n blk chains [] blk chains
  /-- An entry that is refused. -/
  | skipped {blk blk' : Blk} {chains chains' : List (List Nat)} {taken : List Nat}
      {q : SplitQueue} {u : Nat} : q.inFlight = blk.queue.inFlight →
      Handled d n { blk with queue := q, lastUsed := u } chains taken blk' chains' →
      Handled d n blk chains taken blk' chains'
  /-- The completion of a chain that has its owner. -/
  | landed {blk blk' : Blk} {chains chains' : List (List Nat)} {taken : List Nat} {h k len : Nat}
      {sl : Slot} {q : SplitQueue} {u : Nat} : blk.slots h = some sl → sl.abandoned = false →
      sl.done = false → blk.queue.inFlight h = true → k < n →
      UsedElem.ofBytes (d.entries k) = ⟨h, len⟩ →
      q.inFlight = update blk.queue.inFlight h false →
      Handled d n
        { blk with
          queue := q
          lastUsed := u
          slots := update blk.slots h
            (some { sl with done := true, status := d.status k, len := len }) }
        chains taken blk' chains' →
      Handled d n blk chains (h :: taken) blk' chains'
  /-- The completion of an abandoned chain. -/
  | freed {blk blk' : Blk} {c : List Nat} {chains₀ chains chains' : List (List Nat)}
      {taken : List Nat} {h k len : Nat} {sl : Slot} {q : SplitQueue} {u : Nat} :
      blk.slots h = some sl → sl.abandoned = true → sl.done = false →
      blk.queue.inFlight h = true → k < n → UsedElem.ofBytes (d.entries k) = ⟨h, len⟩ →
      q.inFlight = update blk.queue.inFlight h false → ((h :: c) :: chains₀).Perm chains →
      Handled d n { blk with queue := q, lastUsed := u, slots := update blk.slots h none } chains₀
        taken blk' chains' →
      Handled d n blk chains (h :: taken) blk' chains'

namespace Owned

variable {blk : Blk} {free : List Nat} {chains : List (List Nat)}

theorem drain {d : DeviceInput} {n m k : Nat} (o : Owned blk free chains) (hk : k + m ≤ n) :
    ∃ taken blk' free' chains', Blk.drain d m k blk = .ok (taken, blk') ∧
      Handled d n blk chains taken blk' chains' ∧ Owned blk' free' chains' := by
  induction m generalizing k blk free chains with
  | zero => exact ⟨[], blk, free, chains, rfl, .nil blk chains, o⟩
  | succ m ih =>
    have hn : k + 1 + m ≤ n := by omega
    have hs : blk.lastUsed % queueSize < blk.queue.size := by
      rw [o.size]
      exact Nat.mod_lt _ (by decide)
    have hr : blk.lastUsed % queueSize % blk.queue.size = blk.lastUsed % queueSize :=
      Nat.mod_eq_of_lt hs
    simp only [Blk.drain, SplitQueue.ingestUsedSlot, hs, if_true]
    rw [show ({ blk with queue := { blk.queue with usedRing := _ } } : Blk) = blk.ingest d k from
      rfl]
    -- An entry is refused, recorded in its slot, or the end of an abandoned chain.
    rcases Blk.takeUsed_eq (blk.ingest d k).queue (blk.lastUsed % queueSize) with
      hno | ⟨h, len, -, hf, he, -⟩
    · have ht : (blk.ingest d k).take (blk.lastUsed % queueSize) (d.status k) =
          .ok (none, blk.ingest d k) := by
        unfold Blk.take
        rw [hno]
      obtain ⟨taken, blk', free', chains', hd, hh, o'⟩ :=
        ih (o.ingest d k).clocked hn
      exact ⟨taken, blk', free', chains', by simp only [ht, bind, Except.bind, hd]; rfl,
        .skipped (q := (blk.ingest d k).queue) rfl hh, o'⟩
    · obtain ⟨sl, hsl, hc⟩ := (o.ingest d k).take_of_flight (d.status k) he hf
      simp only [Blk.ingest, hr, update_self] at he
      have hdo : sl.done = false := by
        simpa [hf] using (o.ingest d k).flight h sl hsl
      rcases hc with ⟨ha, ht, o₁⟩ | ⟨ha, q, c, chains₀, ht, hq, hp, o₁⟩
      · obtain ⟨taken, blk', free', chains', hd, hh, o'⟩ := ih o₁.clocked hn
        exact ⟨h :: taken, blk', free', chains',
          by simp only [ht, bind, Except.bind, hd]; rfl,
          .landed hsl ha hdo hf (by omega) he rfl hh, o'⟩
      · obtain ⟨taken, blk', free', chains', hd, hh, o'⟩ := ih o₁.clocked hn
        exact ⟨h :: taken, blk', free', chains',
          by simp only [ht, bind, Except.bind, hd]; rfl,
          .freed hsl ha hdo hf (by omega) he hq hp hh, o'⟩

theorem handleCompletion (o : Owned blk free chains) (d : DeviceInput) :
    ∃ taken blk' free' chains', blk.handleCompletion d = .ok (taken, blk') ∧
      Handled d (blk.pending d) blk chains taken blk' chains' ∧ Owned blk' free' chains' := by
  unfold Blk.handleCompletion
  split
  · exact ⟨[], blk, free, chains, rfl, .nil blk chains, o⟩
  · exact o.drain (Nat.zero_add _).le

end Owned

end Qunix.Block
