/-
Runs of the block driver over the memory it shares with the device.

The invariant (`Shown`) says of each outstanding request that its chain is live
and that what it rests on stands in memory, and of the submission in progress
that the stores to come put it there, the index last. Every step keeps it. So a
device that decodes the memory finds the outstanding requests, at every moment;
and since a request with a free chain is always submitted to the end, a run can
be prolonged until a slot is used again.
-/

import Mathlib.Data.List.Pairwise
import Qunix.Block.RingView

namespace Qunix.Block

open Function Qunix.Virtio Qunix.Lib

/-! ### The stores of a submission -/

section Stores

variable {a : Areas} {blk : Blk} {q : SplitQueue} {r : Request} {h x y k : Nat}

theorem descTransfers_eq (hsi : q.size = queueSize) (hlt : ∀ i ∈ [h, x, y], i < queueSize)
    (hm : (q.desc h).flags.next = true) (hn : (q.desc h).next = x)
    (hm' : (q.desc x).flags.next = true) (hn' : (q.desc x).next = y)
    (hl : (q.desc y).flags.next = false) :
    a.descTransfers q q.size h = .ok ([h, x, y].map fun i =>
      place a (.desc i, (q.desc i).toBytes)) := by
  have hh : h < queueSize := hlt h (by simp)
  have hx : x < queueSize := hlt x (by simp)
  have hy : y < queueSize := hlt y (by simp)
  rw [hsi, show a.descTransfers q queueSize h = a.descTransfers q (61 + 1 + 1 + 1) h from rfl]
  simp only [Areas.descTransfers, SplitQueue.nextInChain, SplitQueue.read, hsi, hh, hx, hy,
    if_true, hm, hn, hm', hn', hl, bind, Except.bind, pure, Except.pure,
    Bool.false_eq_true, if_false]
  rfl

/-- The copies of a submission, for a request of which `k` came before. -/
theorem submitTransfers_eq (hm : blk.metaPhys = a.metaPhys) (hda : blk.dataPhys = a.dataPhys)
    (hsi : q.size = queueSize) (hs' : blk.queue.size = queueSize)
    (hlt : ∀ i ∈ [h, x, y], i < queueSize) (hp : Published blk r blk.queue q h x y)
    (ha : blk.queue.availIdx = k % 2 ^ 16) :
    ∃ next, a.submitTransfers (blk.record q h r) h r =
      .ok (((⟨h, x, y, r, k⟩ : Posted).staged a next).map (place a) ++
        [place a (.index, toLE 2 ((k + 1) % 2 ^ 16))]) := by
  obtain ⟨next, hst⟩ := hp.status
  have hd := descTransfers_eq (a := a) hsi hlt (by rw [hp.header]) (by rw [hp.header])
    (by rw [hp.data]) (by rw [hp.data]) (by rw [hst])
  have hidx : q.availIdx = (k + 1) % 2 ^ 16 := by
    rw [hp.availIdx, ha]
    omega
  have hsl : (q.availIdx + 2 ^ 16 - 1) % 2 ^ 16 % queueSize = k % queueSize := by
    rw [hidx, queueSize]
    omega
  have ht : blk.queue.availIdx % blk.queue.size = k % queueSize := by
    rw [ha, hs', queueSize]
    omega
  have hr : q.availRing (k % queueSize) = h := ht ▸ hp.availRing
  have hv : k % queueSize < q.size := by
    rw [hsi]
    exact Nat.mod_lt _ (by decide)
  refine ⟨next, ?_⟩
  simp only [Areas.submitTransfers, Areas.writeRings, Blk.record, hd, hsl, hv, hr,
    if_true, bind, Except.bind, pure, Except.pure, List.map_cons, List.map_nil, hp.header,
    hp.data, hst]
  cases hout : r.out <;>
    simp [Posted.staged, Posted.copied, Posted.described, Posted.headerDesc, Posted.dataDesc,
      Posted.statusDesc, place, hout, Part.base, Blk.headerPhys, Blk.statusPhys, Blk.bouncePhys,
      hm, hda, hidx]

end Stores

/-! ### The invariant -/

namespace Wire

/-- The requests that have a chain, the one being submitted first. -/
def live (w : Wire) : List Posted := w.entering.toList ++ w.out

/-- How many requests were published, by the store of the index. -/
def published (w : Wire) : Nat := w.submitted - w.entering.toList.length

end Wire

/-- The stores of a submission that come before the one of the index. -/
structure Entering (a : Areas) (m : Nat → UInt8) (stores : List Write) (e : Posted) : Prop where
  covered : ∀ p ∈ stores, ∃ q ∈ e.touched, q.Covers a p
  placed : Placed a (written m stores) e
  slot : readBytes (written m stores) ((Part.slot (e.seq % queueSize)).base a) 2 = toLE 2 e.head

/-- The store that publishes the request number `k`. -/
def indexStore (a : Areas) (k : Nat) : Write := ⟨Part.index.base a, toLE 2 (k % 2 ^ 16)⟩

structure Shown (a : Areas) (w : Wire) (free : List Nat) : Prop where
  metaPhys : w.blk.metaPhys = a.metaPhys
  dataPhys : w.blk.dataPhys = a.dataPhys
  owned : Owned w.blk free (w.live.map Posted.chain)
  taken : ∀ o ∈ w.live, o.request.Fits ∧ o.request.WellFormed
  avail : w.blk.queue.availIdx = w.submitted % 2 ^ 16
  old : ∀ o ∈ w.out, o.seq < w.published
  placed : ∀ o ∈ w.out, Placed a w.mem o
  slot : ∀ o ∈ w.out, w.submitted ≤ o.seq + queueSize →
    readBytes w.mem ((Part.slot (o.seq % queueSize)).base a) 2 = toLE 2 o.head
  index : readBytes w.mem (Part.index.base a) 2 = toLE 2 (w.published % 2 ^ 16)
  idle : w.entering = none → w.pending = []
  entering : ∀ e ∈ w.entering, w.submitted = e.seq + 1 ∧
    ∃ stores, w.pending = stores ++ [indexStore a w.submitted] ∧ Entering a w.mem stores e

namespace Shown

variable {a : Areas} {w w' : Wire} {free : List Nat} {o o' e : Posted} {r : Request} {h : Nat}

theorem boot (a : Areas) (mem : Nat → UInt8) (bounce : Nat → BufferCache.Bytes) :
    Shown a (.boot a mem bounce) (List.range queueSize) where
  metaPhys := rfl
  dataPhys := rfl
  owned := Owned.boot _ _ _
  taken _ ho := nomatch ho
  avail := rfl
  old _ ho := nomatch ho
  placed _ ho := nomatch ho
  slot _ ho := nomatch ho
  index := by
    simp only [Wire.boot, Part.base, Nat.add_assoc]
    rw [readBytes_writeBytes_replicate 0 (by decide)]
    change List.replicate 2 0 = toLE 2 (0 % 2 ^ 16)
    decide
  idle _ := rfl
  entering _ he := nomatch he

theorem disjoint (hs : Shown a w free) (ho : o ∈ w.live) (ho' : o' ∈ w.live) (hne : o ≠ o') :
    ∀ i ∈ o.chain, i ∉ o'.chain := by
  have hn := (List.nodup_append.mp hs.owned.laid.nodup).2.1
  have hp := List.pairwise_map.mp (List.nodup_flatten.mp hn).2
  have : Std.Symm fun o o' : Posted => o.chain.Disjoint o'.chain :=
    ⟨fun _ _ hd _ hi hi' => hd hi' hi⟩
  exact fun i hi hi' => hp.forall ho ho' hne hi hi'

theorem sound (hs : Shown a w free) (ho : o ∈ w.live) : o.Sound where
  fits := (hs.taken o ho).1
  wellFormed := (hs.taken o ho).2
  lt i hi := by
    rw [← hs.owned.size]
    exact hs.owned.laid.lt_of_chain (List.mem_map_of_mem ho) hi
  nodup := by
    have hn := (List.nodup_append.mp hs.owned.laid.nodup).2.1
    exact (List.nodup_flatten.mp hn).1 _ (List.mem_map_of_mem ho)

theorem mem_live (ho : o ∈ w.out) : o ∈ w.live := List.mem_append_right _ ho

theorem entering_mem_live (he : w.entering = some e) : e ∈ w.live := by
  simp [Wire.live, he]

section

variable (hs : Shown a w free)

include hs

theorem published_eq (he : w.entering = some e) : w.published = e.seq := by
  have hseq := (hs.entering e he).1
  simp only [Wire.published, he, Option.toList_some, List.length_singleton]
  omega

/-- The submission in progress came after the outstanding requests. -/
theorem seq_lt (he : w.entering = some e) (ho : o ∈ w.out) :
    o.seq < e.seq := by
  rw [← hs.published_eq he]
  exact hs.old o ho

theorem entering_ne (he : w.entering = some e) (ho : o ∈ w.out) : o ≠ e := by
  rintro rfl
  exact Nat.lt_irrefl _ (hs.seq_lt he ho)

/-- A descriptor table of 64 holds the free ones and three of each live request. -/
theorem free_length : free.length + 3 * w.live.length = queueSize := by
  have hlen := hs.owned.laid.perm.length_eq
  have hc : ∀ l : List Posted, (l.map Posted.chain).flatten.length = 3 * l.length := by
    intro l
    induction l with
    | nil => rfl
    | cons o l ih =>
      simp only [List.map_cons, List.flatten_cons, List.length_append, ih, List.length_cons,
        Posted.chain, List.length_nil]
      omega
  rw [List.length_append, hc, hs.owned.size] at hlen
  exact hlen

end

/-! ### One step -/

/-- A part that goes with no descriptor is none a request rests on. -/
theorem ne_of_owner_none {p q : Part} (hp : p ∈ o.parts) (hq : q.owner = none) : p ≠ q := by
  rintro rfl
  obtain ⟨i, -, ho⟩ := Posted.owner_of_parts hp
  rw [hq] at ho
  cases ho

section

variable (hs : Shown a w free)

include hs

/-- The submission stores nothing that an outstanding request needs. -/
theorem agree_of_touched (he : w.entering = some e) (ho : o ∈ w.out)
    {p : Write} {q : Part} (hq : q ∈ e.touched) (hc : q.Covers a p) :
    (∀ part ∈ o.parts, part.Agree a w.mem (writeBytes w.mem p.addr p.bytes)) ∧
      (w.submitted ≤ o.seq + queueSize → (Part.slot (o.seq % queueSize)).Agree a w.mem
        (writeBytes w.mem p.addr p.bytes)) := by
  have hl := entering_mem_live he
  have hv := (hs.sound hl).valid_of_touched hq
  have hne := hs.entering_ne he ho
  refine ⟨fun part hp => ?_, fun hr => ?_⟩
  · refine Part.agree_writeBytes ((hs.sound (mem_live ho)).valid_of_parts hp) hv ?_ hc
    rintro rfl
    exact Posted.not_mem_touched (hs.disjoint (mem_live ho) hl hne) hp hq
  · refine Part.agree_writeBytes (Nat.mod_lt _ (by decide)) hv ?_ hc
    have hlt := hs.seq_lt he ho
    have hseq := (hs.entering e he).1
    rcases Posted.owner_of_touched hq with rfl | ⟨i, -, how⟩
    · simp only [ne_eq, Part.slot.injEq]
      unfold queueSize at *
      omega
    · rintro rfl
      cases how

/-- A change of memory that the outstanding requests do not see. -/
theorem unseen {m' : Nat → UInt8}
    (hp : ∀ o ∈ w.out, ∀ p ∈ o.parts, p.Agree a w.mem m')
    (hsl : ∀ o ∈ w.out, w.submitted ≤ o.seq + queueSize →
      (Part.slot (o.seq % queueSize)).Agree a w.mem m') :
    (∀ o ∈ w.out, Placed a m' o) ∧ ∀ o ∈ w.out, w.submitted ≤ o.seq + queueSize →
      readBytes m' ((Part.slot (o.seq % queueSize)).base a) 2 = toLE 2 o.head := by
  refine ⟨fun o ho => (hs.placed o ho).congr (hs.sound (mem_live ho)) (hp o ho),
    fun o ho hr => ?_⟩
  exact ((hsl o ho hr).readBytes_eq (le_rfl)).trans (hs.slot o ho hr)

theorem store_staged (he : w.entering = some e) {p : Write}
    {stores : List Write} (hent : Entering a w.mem (p :: stores) e) :
    Shown a { w with
      mem := writeBytes w.mem p.addr p.bytes
      pending := stores ++ [indexStore a w.submitted] } free := by
  obtain ⟨q, hq, hc⟩ := hent.covered p List.mem_cons_self
  have hl := entering_mem_live he
  obtain ⟨hp, hsl⟩ := hs.unseen
    (fun o ho => (hs.agree_of_touched he ho hq hc).1)
    (fun o ho => (hs.agree_of_touched he ho hq hc).2)
  have hi : Part.index.Agree a w.mem (writeBytes w.mem p.addr p.bytes) := by
    refine Part.agree_writeBytes trivial ((hs.sound hl).valid_of_touched hq) ?_ hc
    rintro rfl
    rcases Posted.owner_of_touched hq with hsl | ⟨i, -, how⟩
    · cases hsl
    · cases how
  refine { hs with
    placed := hp
    slot := hsl
    index := (hi.readBytes_eq le_rfl).trans hs.index
    idle := fun hn => ?_
    entering := fun e' he' => ?_ }
  · rw [he] at hn
    cases hn
  · obtain rfl := Option.mem_unique he he'
    exact ⟨(hs.entering e he).1, stores, rfl,
      fun p' hp' => hent.covered p' (List.mem_cons_of_mem _ hp'), hent.placed, hent.slot⟩

/-- The store of the index: the request becomes outstanding. -/
theorem store_index (he : w.entering = some e)
    (hent : Entering a w.mem [] e) :
    Shown a { w with
      mem := writeBytes w.mem (indexStore a w.submitted).addr (indexStore a w.submitted).bytes
      pending := []
      entering := none
      out := w.entering.toList ++ w.out } free := by
  have hl := entering_mem_live he
  have hseq := (hs.entering e he).1
  have hi : readBytes (writeBytes w.mem (indexStore a w.submitted).addr
      (indexStore a w.submitted).bytes) (Part.index.base a) 2 = toLE 2 (w.submitted % 2 ^ 16) :=
    readBytes_writeBytes length_toLE
  have ha : ∀ q : Part, q.Valid → q ≠ .index → q.Agree a w.mem (writeBytes w.mem
      (indexStore a w.submitted).addr (indexStore a w.submitted).bytes) :=
    fun q hq hne => Part.agree_writeBytes hq (q := .index) trivial hne
      ⟨le_rfl, by simp [indexStore, Part.size]⟩
  generalize writeBytes w.mem (indexStore a w.submitted).addr (indexStore a w.submitted).bytes = m
    at hi ha
  have hpa : ∀ o ∈ w.live, ∀ p ∈ o.parts, p.Agree a w.mem m :=
    fun o ho p hp => ha p ((hs.sound ho).valid_of_parts hp) (ne_of_owner_none hp rfl)
  have hsl : ∀ i, (Part.slot (i % queueSize)).Agree a w.mem m :=
    fun i => ha _ (Nat.mod_lt _ (by decide)) (by simp)
  obtain ⟨hpl, hslot⟩ := hs.unseen (fun o ho => hpa o (mem_live ho))
    fun o _ _ => hsl o.seq
  have hc : w.entering.toList ++ w.out = e :: w.out := by simp [he]
  rw [hc]
  constructor
  case metaPhys => exact hs.metaPhys
  case dataPhys => exact hs.dataPhys
  case owned =>
    have how := hs.owned
    rwa [Wire.live, hc] at how
  case taken =>
    have ht := hs.taken
    rwa [Wire.live, hc] at ht
  case avail => exact hs.avail
  case old =>
    intro o ho
    simp only [Wire.published, Option.toList_none, List.length_nil]
    rcases List.mem_cons.mp ho with rfl | ho
    · omega
    · have hlt := hs.seq_lt he ho
      omega
  case placed =>
    intro o ho
    rcases List.mem_cons.mp ho with rfl | ho
    · exact hent.placed.congr (hs.sound hl) (hpa o hl)
    · exact hpl o ho
  case slot =>
    intro o ho hr
    rcases List.mem_cons.mp ho with rfl | ho
    · exact ((hsl o.seq).readBytes_eq (le_rfl)).trans hent.slot
    · exact hslot o ho hr
  case index => exact hi
  case idle => exact fun _ => rfl
  case entering => simp

theorem store (hst : w.store = some w') : Shown a w' free := by
  unfold Wire.store at hst
  split at hst
  · cases hst
  · rename_i p rest hp
    obtain ⟨e, he⟩ : ∃ e, w.entering = some e := by
      cases hent : w.entering with
      | none => exact absurd (hs.idle hent) (by simp [hp])
      | some e => exact ⟨e, rfl⟩
    obtain ⟨-, stores, hstores, hent⟩ := hs.entering e he
    cases stores with
    | nil =>
      obtain ⟨rfl, rfl⟩ := List.cons.inj (hp.symm.trans hstores)
      rw [if_pos rfl, Option.some.injEq] at hst
      exact hst ▸ hs.store_index he hent
    | cons p' stores =>
      obtain ⟨rfl, rfl⟩ := List.cons.inj (hp.symm.trans hstores)
      rw [if_neg (by simp), Option.some.injEq] at hst
      exact hst ▸ hs.store_staged he hent

/-- What the device stores to is in a part that no request rests on. -/
theorem deviceMay_part {addr : Nat} (hmay : w.DeviceMay a addr) :
    ∃ q : Part, q.Valid ∧ q.base a ≤ addr ∧ addr < q.base a + q.size ∧ (∀ i, q ≠ .slot i) ∧
      q ≠ .index ∧ ∀ o ∈ w.live, q ∉ o.parts := by
  rcases hmay with ⟨hlo, hhi⟩ | ⟨o, ho, hb⟩
  · refine ⟨.used, trivial, hlo, ?_, by simp, by simp, fun o _ hp => ne_of_owner_none hp rfl rfl⟩
    simp only [Part.base, Part.size] at *
    omega
  · have hso := hs.sound (mem_live ho)
    have hh : o.head ∈ o.chain := List.mem_cons_self
    -- The parts of another request go with the descriptors of another chain.
    have hot : ∀ q : Part, q.owner = some o.head → ∀ o' ∈ w.live, q ∈ o'.parts → o' = o := by
      intro q hq o' ho' hpa
      by_contra hne
      obtain ⟨i, hi, how⟩ := Posted.owner_of_parts hpa
      obtain rfl := Option.mem_unique hq how
      exact hs.disjoint ho' (mem_live ho) hne _ hi hh
    rcases hb with rfl | ⟨hr, hlo, hhi⟩
    · refine ⟨.status o.head, hso.lt _ hh, ?_, ?_, by simp, by simp, fun o' ho' hpa => ?_⟩
      · rw [Blk.statusPhys, Blk.headerPhys, hs.metaPhys]
        exact le_rfl
      · rw [Blk.statusPhys, Blk.headerPhys, hs.metaPhys]
        exact Nat.lt_succ_self _
      · simp [Posted.parts, Posted.copied] at hpa
    · rw [Blk.bouncePhys, hs.dataPhys] at hlo hhi
      refine ⟨.data o.head, hso.lt _ hh, hlo, ?_, by simp, by simp, fun o' ho' hpa => ?_⟩
      · exact hhi.trans_le (Nat.add_le_add_left hso.len_le _)
      · obtain rfl := hot _ rfl o' ho' hpa
        simp [Posted.parts, Posted.copied, hr] at hpa

theorem device {addr : Nat} (hmay : w.DeviceMay a addr) (byte : UInt8) :
    Shown a { w with mem := update w.mem addr byte } free := by
  obtain ⟨q, hv, hlo, hhi, hslots, hi, hr⟩ := hs.deviceMay_part hmay
  have hpa : ∀ o ∈ w.live, ∀ p ∈ o.parts, p.Agree a w.mem (update w.mem addr byte) := by
    refine fun o ho p hp => Part.agree_update ((hs.sound ho).valid_of_parts hp) hv ?_ hlo hhi
    rintro rfl
    exact hr o ho hp
  have hsl : ∀ i, (Part.slot (i % queueSize)).Agree a w.mem (update w.mem addr byte) :=
    fun i => Part.agree_update (Nat.mod_lt _ (by decide)) hv (hslots _).symm hlo hhi
  have ha : Part.index.Agree a w.mem (update w.mem addr byte) :=
    Part.agree_update trivial hv hi.symm hlo hhi
  obtain ⟨hpl, hs'⟩ := hs.unseen (fun o ho => hpa o (mem_live ho)) fun o _ _ => hsl o.seq
  refine { hs with
    placed := hpl
    slot := hs'
    index := (ha.readBytes_eq le_rfl).trans hs.index
    entering := fun e he => ?_ }
  obtain ⟨hseq, stores, hst, hent⟩ := hs.entering e he
  have hl := entering_mem_live he
  refine ⟨hseq, stores, hst, hent.covered, ?_, ?_⟩
  · exact hent.placed.congr (hs.sound hl) fun p hp => (hpa e hl p hp).written stores
  · exact (((hsl e.seq).written stores).readBytes_eq le_rfl).trans hent.slot

theorem enter (hn : w.entering = none) (blk : Blk) (next : Nat)
    {rest : List Nat} (hseq : e.seq = w.submitted) (hm : blk.metaPhys = a.metaPhys)
    (hd : blk.dataPhys = a.dataPhys) (ho : Owned blk rest (e.chain :: w.out.map Posted.chain))
    (hf : e.request.Fits) (hr : e.request.WellFormed)
    (ha : blk.queue.availIdx = (w.submitted + 1) % 2 ^ 16) :
    Shown a { w with
      blk := blk
      pending := ((e.staged a next).map (place a)).flatMap Transfer.writes ++
        [indexStore a (w.submitted + 1)]
      entering := some e
      submitted := w.submitted + 1 } rest := by
  have hpub : w.published = w.submitted := by simp [Wire.published, hn]
  have hso : e.Sound := by
    refine ⟨hf, hr, fun i hi => ?_, ?_⟩
    · rw [← ho.size]
      exact ho.laid.lt_of_chain List.mem_cons_self hi
    · exact (List.nodup_flatten.mp (List.nodup_append.mp ho.laid.nodup).2.1).1 _ List.mem_cons_self
  constructor
  case metaPhys => exact hm
  case dataPhys => exact hd
  case owned => exact ho
  case taken =>
    intro o hmem
    rcases List.mem_cons.mp hmem with rfl | hmem
    · exact ⟨hf, hr⟩
    · exact hs.taken o (mem_live hmem)
  case avail => exact ha
  case old =>
    intro o hmem
    have := hs.old o hmem
    simp only [Wire.published, Option.toList_some, List.length_singleton]
    omega
  case placed => exact hs.placed
  case slot =>
    intro o hmem hre
    dsimp only at hre
    exact hs.slot o hmem (by omega)
  case index =>
    have hin := hs.index
    rwa [hpub] at hin
  case idle => exact nofun
  case entering =>
    intro e' he'
    obtain rfl := Option.some.inj he'
    obtain ⟨hpl, hsl⟩ := placed_staged hso w.mem next
    refine ⟨by rw [hseq], _, rfl, fun p hp => ?_, hpl, hsl⟩
    obtain ⟨t, ht, hp⟩ := List.mem_flatMap.mp hp
    obtain ⟨c, hc, rfl⟩ := List.mem_map.mp ht
    exact ⟨c.1, Posted.map_staged a e next ▸ List.mem_map_of_mem hc,
      covers_of_mem_place (hso.length_le_of_staged hc) hp⟩

theorem entering_none (hi : w.pending = []) : w.entering = none := by
  cases hent : w.entering with
  | none => rfl
  | some e =>
    obtain ⟨-, stores, hst, -⟩ := hs.entering e hent
    rw [hi] at hst
    exact absurd hst.symm (by simp)

theorem submit (hid : w.pending = []) (hr : r.WellFormed) :
    (w.step a (.submit r) = some w ∧ ¬ (r.Fits ∧ 3 ≤ free.length)) ∨
      ∃ w' e free', w.step a (.submit r) = some w' ∧ Shown a w' free' ∧ w'.entering = some e ∧
        w'.out = w.out ∧ w'.submitted = w.submitted + 1 ∧ e.request = r := by
  have hn := hs.entering_none hid
  have ho := hs.owned
  rw [show w.live = w.out by simp [Wire.live, hn]] at ho
  rcases ho.submit r with ⟨e, hsu, hre⟩ |
    ⟨h, c, rest, q, hsp, hsu, -, o', hf, x, y, rfl, hpub⟩
  · refine .inl ⟨?_, hre⟩
    rw [Wire.step, if_pos ⟨hid, hr⟩, hsu]
  · obtain ⟨next, ht⟩ := submitTransfers_eq (q := q) hs.metaPhys
      hs.dataPhys o'.size ho.size
      (fun i hi => o'.size ▸ o'.laid.lt_of_chain List.mem_cons_self hi) hpub hs.avail
    refine .inr ⟨_, ⟨h, x, y, r, w.submitted⟩, rest, ?_,
      hs.enter (e := ⟨h, x, y, r, w.submitted⟩) hn (w.blk.record q h r) next rfl hs.metaPhys
        hs.dataPhys o' hf hr ?_, rfl, rfl, rfl, rfl⟩
    · have hx : ((w.blk.record q h r).queue.desc h).next = x := by
        rw [Blk.record, hpub.header]
      have hy : ((w.blk.record q h r).queue.desc x).next = y := by
        rw [Blk.record, hpub.data]
      simp only [Wire.step, hid, hr, hsu, Wire.enter, ht, bind, Except.bind, pure, hx, hy,
        List.flatMap_append]
      rfl
    · rw [Blk.record, hpub.availIdx, hs.avail]
      omega

theorem release (hi : w.pending = []) {l₁ l₂ : List Posted}
    (hout : w.out = l₁ ++ o :: l₂) (hfi : ∀ o' ∈ l₁, ¬ o'.head = o.head) :
    ∃ w' free', w.step a (.release o.head) = some w' ∧ Shown a w' free' ∧ w'.entering = none ∧
      w'.pending = [] ∧ w'.out = l₁ ++ l₂ ∧ w'.submitted = w.submitted := by
  have hn := hs.entering_none hi
  have hl : w.live = w.out := by simp [Wire.live, hn]
  have hp : (o.chain :: (l₁ ++ l₂).map Posted.chain).Perm (w.live.map Posted.chain) := by
    rw [hl, hout]
    exact (List.perm_middle).symm.map Posted.chain
  have hf : Owned w.blk free ([o.head, o.data, o.status] :: (l₁ ++ l₂).map Posted.chain) :=
    hs.owned.reorder hp
  obtain ⟨q, hr, -, ha, ho⟩ := hf.release
  have he : w.out.eraseP (fun o' => o'.head == o.head) = l₁ ++ l₂ := by
    rw [hout, List.eraseP_append_right _ (by simpa using hfi), List.eraseP_cons_of_pos (by simp)]
  have hsub : ∀ o' ∈ l₁ ++ l₂, o' ∈ w.out := by
    intro o' ho'
    rw [hout]
    simp only [List.mem_append] at ho' ⊢
    tauto
  refine ⟨{ w with
    blk := { w.blk with queue := q, slots := update w.blk.slots o.head none }
    out := l₁ ++ l₂ }, o.chain.reverse ++ free, ?_, ⟨hs.metaPhys, hs.dataPhys, ?_,
    fun o' ho' => ?_, ha.trans hs.avail, fun o' ho' => hs.old o' (hsub o' ho'),
    fun o' ho' => hs.placed o' (hsub o' ho'), fun o' ho' => hs.slot o' (hsub o' ho'), hs.index,
    hs.idle, hs.entering⟩, hn, hi, rfl, rfl⟩
  · rw [Wire.step, if_pos ⟨hi, by simp [hout]⟩, hr, he]
  · rw [hn]
    exact ho
  · simp only [hn] at ho'
    exact hs.taken o' (mem_live (hsub o' ho'))

theorem step {act : WireAct} (hst : Wire.Step a w act w') :
    ∃ free', Shown a w' free' := by
  cases act with
  | submit r =>
    have hg : w.pending = [] ∧ r.WellFormed := by
      by_contra hno
      rw [Wire.Step, Wire.step, if_neg hno] at hst
      cases hst
    rcases hs.submit hg.1 hg.2 with ⟨hstep, -⟩ | ⟨w₁, e, free', hstep, hs', -⟩
    · obtain rfl := Option.mem_unique hstep hst
      exact ⟨free, hs⟩
    · obtain rfl := Option.mem_unique hstep hst
      exact ⟨free', hs'⟩
  | store => exact ⟨free, hs.store hst⟩
  | release h =>
    have hg : w.pending = [] ∧ w.out.any (fun o => o.head == h) = true := by
      by_contra hno
      rw [Wire.Step, Wire.step, if_neg hno] at hst
      cases hst
    obtain ⟨o, ho, hh⟩ := List.any_eq_true.mp hg.2
    obtain ⟨o, l₁, l₂, hf, hh, hout, -⟩ := List.exists_of_eraseP (p := fun o => o.head == h) ho hh
    obtain rfl := beq_iff_eq.mp hh
    obtain ⟨w₁, free', hstep, hs', -⟩ :=
      hs.release hg.1 hout fun o' ho' heq => hf o' ho' (beq_iff_eq.mpr heq)
    obtain rfl := Option.mem_unique hstep hst
    exact ⟨free', hs'⟩
  | device addr byte =>
    rw [Wire.Step, Wire.step] at hst
    split_ifs at hst with hmay
    cases hst
    exact ⟨free, hs.device hmay byte⟩

end

theorem of_run {mem : Nat → UInt8} {bounce : Nat → BufferCache.Bytes} {acts : List WireAct}
    (hrun : Run (Wire.Step a) (.boot a mem bounce) acts w) : ∃ free, Shown a w free :=
  hrun.invariant (p := fun w => ∃ free, Shown a w free)
    (fun _ _ _ ⟨_, hs⟩ hst => hs.step hst) ⟨_, boot a mem bounce⟩

/-- The slot of a request holds its head, as the device reads it. -/
theorem availSlot_eq (hs : Shown a w free) (ho : o ∈ w.out)
    (hr : w.submitted ≤ o.seq + queueSize) :
    availSlot w.mem (a.ringPhys + (ringLayout queueSize).avail) (o.seq % queueSize) = o.head := by
  have hsl := hs.slot o ho hr
  rw [Part.base, Nat.mul_comm _ 2] at hsl
  have hlt : o.head < queueSize := (hs.sound (mem_live ho)).lt _ List.mem_cons_self
  exact readLE_of_readBytes (hlt.trans (by decide)) hsl

end Shown

/-! ### Prolonging a run -/

namespace Shown

variable {a : Areas} {w w' : Wire} {free : List Nat} {o : Posted} {r : Request} {p : Write}
  {rest : List Write}

theorem stores_run (hp : w.pending = p :: rest) :
    ∃ acts w', Run (Wire.Step a) w acts w' ∧ w'.pending = [] ∧
      w'.out = w.entering.toList ++ w.out ∧ w'.submitted = w.submitted := by
  induction rest generalizing w p with
  | nil =>
    refine ⟨[.store], _, .cons (t := { w with
      mem := writeBytes w.mem p.addr p.bytes
      pending := []
      entering := none
      out := w.entering.toList ++ w.out }) ?_ (.nil _), rfl, rfl, rfl⟩
    simp [Wire.Step, Wire.step, Wire.store, hp]
  | cons p' rest ih =>
    obtain ⟨acts, w', hrun, hi, hout, hsub⟩ :=
      ih (w := { w with mem := writeBytes w.mem p.addr p.bytes, pending := p' :: rest }) rfl
    refine ⟨.store :: acts, w', .cons ?_ hrun, hi, hout, hsub⟩
    simp [Wire.Step, Wire.step, Wire.store, hp]

theorem submits (hs : Shown a w free) (hi : w.pending = []) (hr : r.WellFormed) (hfi : r.Fits)
    (hro : w.out.length ≤ 20) :
    ∃ acts w' free' o, Run (Wire.Step a) w acts w' ∧ Shown a w' free' ∧ w'.pending = [] ∧
      w'.out = o :: w.out ∧ o.request = r ∧ o.seq = w.submitted ∧
      w'.submitted = w.submitted + 1 := by
  have hf : 3 ≤ free.length := by
    have hlen := hs.free_length
    simp only [Wire.live, hs.entering_none hi, Option.toList_none, List.nil_append,
      queueSize] at hlen
    omega
  rcases hs.submit hi hr with ⟨-, hre⟩ |
    ⟨w₁, e, free₁, hstep, hs₁, hent, hout, hsub, hreq⟩
  · exact absurd ⟨hfi, hf⟩ hre
  · obtain ⟨hseq, stores, hstores, -⟩ := hs₁.entering e hent
    obtain ⟨p, rest, hp⟩ : ∃ p rest, w₁.pending = p :: rest := by
      rw [hstores]
      cases stores with
      | nil | cons p stores => exact ⟨_, _, rfl⟩
    obtain ⟨acts, w', hrun, hi', hout', hsub'⟩ := stores_run hp
    obtain ⟨free', hs'⟩ := hrun.invariant (p := fun w => ∃ free, Shown a w free)
      (fun _ _ _ hs hst => hs.elim fun _ hs => hs.step hst) ⟨free₁, hs₁⟩
    refine ⟨.submit r :: acts, w', free', e, .cons hstep hrun, hs', hi', ?_, hreq, by omega,
      hsub'.trans hsub⟩
    rw [hout', hent, hout]
    rfl

/-- Requests are submitted and released, as often as one likes, while the others stay
outstanding. -/
theorem cycles (hs : Shown a w free) (hi : w.pending = []) (hr : r.WellFormed) (hf : r.Fits)
    (hro : w.out.length ≤ 20) (n : Nat) :
    ∃ acts w' free', Run (Wire.Step a) w acts w' ∧ Shown a w' free' ∧ w'.pending = [] ∧
      w'.out = w.out ∧ w'.submitted = w.submitted + n := by
  induction n with
  | zero => exact ⟨[], w, free, .nil w, hs, hi, rfl, rfl⟩
  | succ n ih =>
    obtain ⟨acts, w₁, free₁, hrun, hs₁, hidle₁, hout₁, hsub₁⟩ := ih
    obtain ⟨acts', w₂, free₂, o, hrun', hs₂, hidle₂, hout₂, -, -, hsub₂⟩ :=
      hs₁.submits hidle₁ hr hf (hout₁ ▸ hro)
    obtain ⟨w₃, free₃, hst, hs₃, -, hidle₃, hout₃, hsub₃⟩ :=
      hs₂.release hidle₂ (show w₂.out = [] ++ o :: w₁.out from hout₂) nofun
    have hl : Wire.Step a w₂ (.release o.head) w₃ := hst
    exact ⟨acts ++ (acts' ++ [.release o.head]), w₃, free₃,
      hrun.append (hrun'.snoc hl), hs₃, hidle₃, hout₃.trans hout₁, by omega⟩

end Shown

/-- Three areas one behind the other. -/
def Areas.adjacent : Areas where
  ringPhys := 0x1000
  metaPhys := 0x2000
  dataPhys := 0x3000
  ring_meta := by decide
  ring_data := by decide
  meta_data := by decide
  meta_le := by decide
  data_le := by decide

def readSector (lba : Nat) : Request := ⟨lba, sectorBytes, none⟩

def writeSector (lba : Nat) (byte : UInt8) : Request :=
  ⟨lba, sectorBytes, some (List.replicate sectorBytes byte)⟩

theorem readSector_fits (lba : Nat) : (readSector lba).Fits := by
  refine ⟨?_, ?_, ?_⟩
  · exact (by decide : sectorBytes ≠ 0)
  · exact (by decide : sectorBytes % sectorBytes = 0)
  · exact (by decide : sectorBytes ≤ maxSectors * sectorBytes)

theorem Decodes.lba_eq {a : Areas} {m : Nat → UInt8} {head : Nat} {r r' : Request}
    (h : Decodes a m head r) (h' : Decodes a m head r') : r.lba = r'.lba := by
  obtain ⟨d, _, _, hc, -, -, -, hlba, -⟩ := h
  obtain ⟨d', _, _, hc', -, -, -, hlba', -⟩ := h'
  obtain ⟨rfl, -⟩ := List.cons.inj (hc.symm.trans hc')
  exact hlba.symm.trans hlba'

/-- At every moment of every run, with the device reading and storing as it likes,
each outstanding request stands in memory as a chain of three descriptors from its
head on; the slot it was published in holds its head until 64 more requests were
submitted; the index counts the published requests; and no two requests have
buffers that overlap. -/
theorem outstanding_requests_shown (a : Areas) {mem : Nat → UInt8}
    {bounce : Nat → BufferCache.Bytes} {acts : List WireAct} {w : Wire}
    (hrun : Run (Wire.Step a) (.boot a mem bounce) acts w) :
    (∀ o ∈ w.out, Decodes a w.mem o.head o.request ∧ (w.submitted ≤ o.seq + queueSize →
      availSlot w.mem (a.ringPhys + (ringLayout queueSize).avail) (o.seq % queueSize) = o.head)) ∧
    availIndex w.mem (a.ringPhys + (ringLayout queueSize).avail) = w.published % 2 ^ 16 ∧
    ∀ o ∈ w.out, ∀ o' ∈ w.out, o ≠ o' → o.head ≠ o'.head ∧
      ∀ b ∈ buffers a w.mem o.head, ∀ b' ∈ buffers a w.mem o'.head, Separate b.1 b.2 b'.1 b'.2 := by
  obtain ⟨free, hs⟩ := Shown.of_run hrun
  refine ⟨fun o ho => ⟨?_, hs.availSlot_eq ho⟩, ?_, fun o ho o' ho' hne => ?_⟩
  · exact (hs.placed o ho).decodes (hs.sound (Shown.mem_live ho))
  · exact readLE_of_readBytes (Nat.mod_lt _ (by decide)) hs.index
  · have hheads : o.head ≠ o'.head := fun heq =>
      hs.disjoint (Shown.mem_live ho) (Shown.mem_live ho') hne o.head List.mem_cons_self
        (heq ▸ List.mem_cons_self)
    exact ⟨hheads, buffers_separate (hs.placed o ho) (hs.placed o' ho')
      (hs.sound (Shown.mem_live ho)) (hs.sound (Shown.mem_live ho')) hheads⟩

/-- A write and a read outstanding at once. -/
theorem outstanding_requests_shown_write_read : ∃ acts w o o',
    Run (Wire.Step .adjacent) (.boot .adjacent (fun _ => 0) fun _ => []) acts w ∧
      w.out = [o', o] ∧ Decodes .adjacent w.mem o.head (writeSector 7 1) ∧
      Decodes .adjacent w.mem o'.head (readSector 8) ∧
      availSlot w.mem (0x1000 + (ringLayout queueSize).avail) 0 = o.head ∧
      availSlot w.mem (0x1000 + (ringLayout queueSize).avail) 1 = o'.head ∧
      availIndex w.mem (0x1000 + (ringLayout queueSize).avail) = 2 ∧ o'.head ≠ o.head ∧
      ∀ b ∈ buffers .adjacent w.mem o'.head, ∀ b' ∈ buffers .adjacent w.mem o.head,
        Separate b.1 b.2 b'.1 b'.2 := by
  obtain ⟨acts₁, w₁, free₁, o, hrun₁, hs₁, hidle₁, hout₁, hreq, hseq, hsub₁⟩ :=
    (Shown.boot .adjacent (fun _ => 0) fun _ => []).submits (r := writeSector 7 1) rfl
      ⟨by decide, by simp [writeSector]⟩ (by unfold Request.Fits; decide) (by decide)
  have hone : w₁.out = [o] := hout₁
  obtain ⟨acts₂, w₂, free₂, o', hrun₂, hs₂, hidle₂, hout₂, hreq', hseq', hsub₂⟩ :=
    hs₁.submits hidle₁ (r := readSector 8) ⟨by decide, nofun⟩ (readSector_fits 8) (by simp [hone])
  have htwo : w₂.out = [o', o] := by rw [hout₂, hone]
  have hcount : w₁.submitted = 1 := hsub₁
  have hfirst : o.seq = 0 := hseq
  obtain ⟨hshown, hindex, hapart⟩ := outstanding_requests_shown .adjacent (hrun₁.append hrun₂)
  obtain ⟨hdec, hslot⟩ := hshown o (by simp [htwo])
  obtain ⟨hdec', hslot'⟩ := hshown o' (by simp [htwo])
  have hne : o' ≠ o := by
    rintro rfl
    omega
  refine ⟨acts₁ ++ acts₂, w₂, o, o', hrun₁.append hrun₂, htwo, hreq ▸ hdec, hreq' ▸ hdec',
    ?_, ?_, ?_,
    hapart o' (by simp [htwo]) o (by simp [htwo]) hne⟩
  · have hslot := hslot (by rw [hsub₂, hcount, hfirst]; decide)
    rwa [hfirst] at hslot
  · have hslot := hslot' (by rw [hsub₂, hseq', hcount]; decide)
    rwa [hseq', hcount] at hslot
  · rw [Wire.published, hs₂.entering_none hidle₂, hsub₂, hcount] at hindex
    exact hindex

/-- A request that stays outstanding while 64 others come and go: the slot it was
published in leads to another request. -/
theorem slot_reused : ∃ acts w o,
    Run (Wire.Step .adjacent) (.boot .adjacent (fun _ => 0) fun _ => []) acts w ∧ o ∈ w.out ∧
      ¬ Decodes .adjacent w.mem (availSlot w.mem (0x1000 + (ringLayout queueSize).avail)
        (o.seq % queueSize)) o.request := by
  have hr : ∀ lba < 2 ^ 64, (readSector lba).WellFormed := fun lba h => ⟨h, nofun⟩
  obtain ⟨acts₁, w₁, free₁, o₁, hrun₁, hs₁, hidle₁, hout₁, hreq₁, hseq₁, hsub₁⟩ :=
    (Shown.boot .adjacent (fun _ => 0) fun _ => []).submits rfl (hr 7 (by decide))
      (readSector_fits 7) (by decide)
  have hone : w₁.out = [o₁] := hout₁
  obtain ⟨acts₂, w₂, free₂, hrun₂, hs₂, hidle₂, hout₂, hsub₂⟩ :=
    hs₁.cycles hidle₁ (hr 8 (by decide)) (readSector_fits 8) (by simp [hone]) 63
  obtain ⟨acts₃, w₃, free₃, o₃, hrun₃, hs₃, hidle₃, hout₃, hreq₃, hseq₃, hsub₃⟩ :=
    hs₂.submits hidle₂ (hr 8 (by decide)) (readSector_fits 8) (by simp [hout₂, hone])
  have hmem₁ : o₁ ∈ w₃.out := by simp [hout₃, hout₂, hone]
  have hmem₃ : o₃ ∈ w₃.out := by simp [hout₃]
  have hboot : w₁.submitted = 1 := hsub₁
  have hfirst : o₁.seq = 0 := hseq₁
  have hsame : o₁.seq % queueSize = o₃.seq % queueSize := by
    rw [hfirst, hseq₃, hsub₂, hboot]
    rfl
  refine ⟨acts₁ ++ (acts₂ ++ acts₃), w₃, o₁, hrun₁.append (hrun₂.append hrun₃), hmem₁,
    fun hdec => ?_⟩
  have hslot := hs₃.availSlot_eq hmem₃ (by rw [queueSize]; omega)
  rw [hsame] at hdec
  rw [show (0x1000 : Nat) = Areas.adjacent.ringPhys from rfl, hslot] at hdec
  have hlba := hdec.lba_eq ((hs₃.placed o₃ hmem₃).decodes (hs₃.sound (Shown.mem_live hmem₃)))
  rw [hreq₁, hreq₃] at hlba
  exact absurd hlba (by decide)

end Qunix.Block
