/-
What the device finds in the memory of the block driver.

The memory is cut into `Part`s that do not meet. An outstanding request rests on
parts of the descriptors of its own chain (`Posted.parts`), a submission stores to
parts of the chain it was given (`Posted.touched`) and to one slot, and the device
to none of either. So what was put there for a request stays until its chain is
released. The slot is one of 64 that the requests take in turn.
-/

import Qunix.Block.Memory

namespace Qunix.Block

open Function Qunix.Virtio Qunix.Lib

/-! ### The parts of the memory -/

inductive Part where
  | header (head : Nat)
  | status (head : Nat)
  | data (head : Nat)
  | desc (index : Nat)
  | index
  | slot (slot : Nat)
  | used
deriving DecidableEq

namespace Part

variable {a : Areas} {p q : Part} {m m' : Nat → UInt8}

def base (a : Areas) : Part → Nat
  | header head => a.metaPhys + head * metaStride
  | status head => a.metaPhys + head * metaStride + RequestHeader.bytes
  | data head => a.dataPhys + head * slotBytes
  | desc i => a.ringPhys + (ringLayout queueSize).desc + i * Descriptor.bytes
  | index => a.ringPhys + (ringLayout queueSize).avail + SplitQueue.availIdxOffset
  | slot i => a.ringPhys + (ringLayout queueSize).avail + SplitQueue.availSlotsOffset + i * 2
  | used => a.ringPhys + (ringLayout queueSize).used

def size : Part → Nat
  | header _ => RequestHeader.bytes
  | status _ => 1
  | data _ => slotBytes
  | desc _ => Descriptor.bytes
  | index => 2
  | slot _ => 2
  | used => (ringLayout queueSize).bytes - (ringLayout queueSize).used

/-- The descriptor a part goes with. -/
def owner : Part → Option Nat
  | header head | status head | data head => some head
  | desc i => some i
  | index | slot _ | used => none

def Valid : Part → Prop
  | header i | status i | data i | desc i | slot i => i < queueSize
  | index | used => True

theorem ringLayout_queueSize : ringLayout queueSize = ⟨0, 1024, 1160, 1678⟩ := by decide

theorem separate (a : Areas) (hp : p.Valid) (hq : q.Valid) (hne : p ≠ q) :
    Separate (p.base a) p.size (q.base a) q.size := by
  have hr := a.ring_meta
  have hr' := a.ring_data
  have hm := a.meta_data
  unfold Separate at *
  cases p <;> cases q <;> simp only [base, size, ringLayout_queueSize] <;>
    simp only [Valid, queueSize, slotBytes, metaStride, RequestHeader.bytes, Descriptor.bytes,
      SplitQueue.availIdxOffset, SplitQueue.availSlotsOffset, ringHeader, ne_eq, header.injEq,
      status.injEq, data.injEq, desc.injEq, slot.injEq, not_true_eq_false] at * <;>
    omega

/-- The memories hold the same in a part. -/
def Agree (a : Areas) (p : Part) (m m' : Nat → UInt8) : Prop :=
  ∀ x, p.base a ≤ x → x < p.base a + p.size → m' x = m x

theorem Agree.written (h : p.Agree a m m') (ws : List Write) :
    p.Agree a (written m ws) (written m' ws) := fun x hlo hhi => written_congr (h x hlo hhi)

theorem Agree.readBytes_eq (h : p.Agree a m m') {n : Nat} (hn : n ≤ p.size) :
    readBytes m' (p.base a) n = readBytes m (p.base a) n :=
  readBytes_congr fun i _ => h _ (by omega) (by omega)

/-- A store lies in one part. -/
def Covers (a : Areas) (p : Part) (w : Write) : Prop :=
  p.base a ≤ w.addr ∧ w.addr + w.bytes.length ≤ p.base a + p.size

theorem agree_writeBytes {w : Write} (hp : p.Valid) (hq : q.Valid) (hne : p ≠ q)
    (hw : q.Covers a w) : p.Agree a m (writeBytes m w.addr w.bytes) := by
  intro x hlo hhi
  have hsep := separate a hp hq hne
  obtain ⟨hlo', hhi'⟩ := hw
  unfold Separate at hsep
  exact writeBytes_of_outside (by omega)

theorem agree_update {addr : Nat} {byte : UInt8} (hp : p.Valid) (hq : q.Valid) (hne : p ≠ q)
    (hlo : q.base a ≤ addr) (hhi : addr < q.base a + q.size) :
    p.Agree a m (update m addr byte) := by
  intro x hlo' hhi'
  have hsep := separate a hp hq hne
  unfold Separate at hsep
  exact update_of_ne (by omega) ..

theorem valid_of_owner {i : Nat} (h : p.owner = some i) (hi : i < queueSize) : p.Valid := by
  cases p <;> simp_all [owner, Valid]

end Part

/-- The copy of bytes into a part. The status byte and the index are single stores. -/
def place (a : Areas) (c : Part × List UInt8) : Transfer where
  addr := c.1.base a
  bytes := c.2
  single :=
    match c.1 with
    | .status _ | .index => true
    | _ => false

variable {a : Areas} {m : Nat → UInt8} {c : Part × List UInt8} {o : Posted}

theorem readBytes_place {cs : List (Part × List UInt8)} (hn : (cs.map Prod.fst).Nodup)
    (hfit : ∀ c ∈ cs, c.1.Valid ∧ c.2.length ≤ c.1.size) (hc : c ∈ cs) :
    readBytes (written m ((cs.map (place a)).flatMap Transfer.writes)) (c.1.base a) c.2.length =
      c.2 := by
  refine readBytes_transfers ?_ (List.mem_map_of_mem hc)
  rw [List.pairwise_map]
  refine (List.pairwise_map.mp hn).imp_of_mem fun hc₁ hc₂ hne => ?_
  obtain ⟨hvalid₁, hlen₁⟩ := hfit _ hc₁
  obtain ⟨hvalid₂, hlen₂⟩ := hfit _ hc₂
  exact (Part.separate a hvalid₁ hvalid₂ hne).mono (le_rfl) (Nat.add_le_add_left hlen₁ _)
    (le_rfl) (Nat.add_le_add_left hlen₂ _)

theorem covers_of_mem_place (hc : c.2.length ≤ c.1.size) {w : Write} (hw : w ∈ (place a c).writes) :
    c.1.Covers a w := by
  obtain ⟨hlo, hhi⟩ := mem_writes hw
  exact ⟨hlo, hhi.trans (Nat.add_le_add_left hc _)⟩

/-! ### What is stored for a request -/

namespace Posted

/-- The data of a write. -/
def copied (o : Posted) : List (Part × List UInt8) :=
  o.request.out.toList.map fun bytes => (.data o.head, bytes)

def headerDesc (a : Areas) (o : Posted) : Descriptor :=
  ⟨(Part.header o.head).base a, RequestHeader.bytes, ⟨true, false⟩, o.data⟩

def dataDesc (a : Areas) (o : Posted) : Descriptor :=
  ⟨(Part.data o.head).base a, o.request.len, ⟨true, o.request.out.isNone⟩, o.status⟩

/-- The last descriptor, with a `next` that means nothing. -/
def statusDesc (a : Areas) (o : Posted) (next : Nat) : Descriptor :=
  ⟨(Part.status o.head).base a, 1, ⟨false, true⟩, next⟩

def described (a : Areas) (o : Posted) (next : Nat) : List (Part × List UInt8) :=
  [(.desc o.head, (o.headerDesc a).toBytes), (.desc o.data, (o.dataDesc a).toBytes),
    (.desc o.status, (o.statusDesc a next).toBytes)]

/-- What has to stay for as long as the request is outstanding. -/
def contents (a : Areas) (o : Posted) (next : Nat) : List (Part × List UInt8) :=
  (.header o.head, o.request.header.toBytes) :: (o.copied ++ o.described a next)

/-- All that is stored before the index. -/
def staged (a : Areas) (o : Posted) (next : Nat) : List (Part × List UInt8) :=
  (.header o.head, o.request.header.toBytes) :: (.status o.head, [0xff]) ::
    (o.copied ++ o.described a next ++ [(.slot (o.seq % queueSize), toLE 2 o.head)])

/-- The parts of `contents`. -/
def parts (o : Posted) : List Part :=
  .header o.head :: (o.copied.map Prod.fst ++ [.desc o.head, .desc o.data, .desc o.status])

/-- The parts of `staged`. -/
def touched (o : Posted) : List Part :=
  .header o.head :: .status o.head ::
    (o.copied.map Prod.fst ++ [.desc o.head, .desc o.data, .desc o.status] ++
      [.slot (o.seq % queueSize)])

/-- A request with a chain of its own. -/
structure Sound (o : Posted) : Prop where
  fits : o.request.Fits
  wellFormed : o.request.WellFormed
  lt : ∀ i ∈ o.chain, i < queueSize
  nodup : o.chain.Nodup

variable {a : Areas} {o e : Posted} {next : Nat} {p : Part}

theorem map_contents : (o.contents a next).map Prod.fst = o.parts := by
  simp [contents, parts, described]

theorem map_staged (a : Areas) (o : Posted) (next : Nat) :
    (o.staged a next).map Prod.fst = o.touched := by
  simp [staged, touched, described]

theorem owner_of_parts (hp : p ∈ o.parts) : ∃ i ∈ o.chain, p.owner = some i := by
  simp only [parts, copied, List.map_map, List.mem_cons, List.mem_append, List.mem_map,
    List.not_mem_nil, or_false] at hp
  rcases hp with rfl | ⟨_, _, rfl⟩ | rfl | rfl | rfl
  · exact ⟨o.head, by simp [chain], rfl⟩
  · exact ⟨o.head, by simp [chain], rfl⟩
  · exact ⟨o.head, by simp [chain], rfl⟩
  · exact ⟨o.data, by simp [chain], rfl⟩
  · exact ⟨o.status, by simp [chain], rfl⟩

theorem owner_of_touched (hp : p ∈ o.touched) :
    p = .slot (o.seq % queueSize) ∨ ∃ i ∈ o.chain, p.owner = some i := by
  have hc : p ∈ o.parts ∨ p = .status o.head ∨ p = .slot (o.seq % queueSize) := by
    simp only [touched, parts, List.mem_cons, List.mem_append] at hp ⊢
    tauto
  rcases hc with hp | rfl | rfl
  · exact .inr (owner_of_parts hp)
  · exact .inr ⟨o.head, by simp [chain], rfl⟩
  · exact .inl rfl

theorem not_mem_touched (hd : ∀ i ∈ o.chain, i ∉ e.chain) (hp : p ∈ o.parts) : p ∉ e.touched := by
  intro hp'
  obtain ⟨i, hi, ho⟩ := owner_of_parts hp
  rcases owner_of_touched hp' with rfl | ⟨j, hj, ho'⟩
  · cases ho
  · obtain rfl := Option.mem_unique ho ho'
    exact hd i hi hj

namespace Sound

theorem valid_of_parts (h : o.Sound) (hp : p ∈ o.parts) : p.Valid := by
  obtain ⟨i, hi, ho⟩ := owner_of_parts hp
  exact Part.valid_of_owner ho (h.lt i hi)

theorem valid_of_touched (h : o.Sound) (hp : p ∈ o.touched) : p.Valid := by
  rcases owner_of_touched hp with rfl | ⟨i, hi, ho⟩
  · exact Nat.mod_lt _ (by decide)
  · exact Part.valid_of_owner ho (h.lt i hi)

theorem len_le (h : o.Sound) : o.request.len ≤ slotBytes := h.fits.2.2

variable {c : Part × List UInt8}

theorem length_le_of_staged (h : o.Sound) (hc : c ∈ o.staged a next) :
    c.2.length ≤ c.1.size := by
  simp only [staged, copied, described, List.mem_cons, List.mem_append, List.mem_map,
    Option.mem_toList, List.not_mem_nil, or_false] at hc
  rcases hc with rfl | rfl | (⟨bytes, hb, rfl⟩ | rfl | rfl | rfl) | rfl
  · exact (RequestHeader.length_toBytes _).le
  · exact le_rfl
  · exact (h.wellFormed.2 bytes hb).le.trans h.len_le
  · exact (Descriptor.length_toBytes _).le
  · exact (Descriptor.length_toBytes _).le
  · exact (Descriptor.length_toBytes _).le
  · exact length_toLE.le

theorem mem_staged (hc : c ∈ o.contents a next) : c ∈ o.staged a next := by
  simp only [contents, staged, List.mem_cons, List.mem_append] at hc ⊢
  tauto

theorem nodup_touched (h : o.Sound) : o.touched.Nodup := by
  have hn := h.nodup
  simp only [chain, List.nodup_cons, List.mem_cons, not_or]
    at hn
  obtain ⟨⟨hd, hs⟩, hl⟩ := hn
  cases hout : o.request.out <;> simp [touched, copied, hout, hd, hs, hl]

end Sound

end Posted

/-- The memory holds what the request rests on. -/
def Placed (a : Areas) (m : Nat → UInt8) (o : Posted) : Prop :=
  ∃ next, ∀ c ∈ o.contents a next, readBytes m (c.1.base a) c.2.length = c.2

theorem Placed.congr {m' : Nat → UInt8} (h : Placed a m o) (ho : o.Sound)
    (ha : ∀ p ∈ o.parts, p.Agree a m m') : Placed a m' o := by
  obtain ⟨next, h⟩ := h
  refine ⟨next, fun c hc => ?_⟩
  have hp : c.1 ∈ o.parts := Posted.map_contents ▸ List.mem_map_of_mem hc
  rw [(ha _ hp).readBytes_eq (ho.length_le_of_staged (Posted.Sound.mem_staged hc))]
  exact h c hc

theorem placed_staged (ho : o.Sound) (m : Nat → UInt8) (next : Nat) :
    Placed a (written m (((o.staged a next).map (place a)).flatMap Transfer.writes)) o ∧
      readBytes (written m (((o.staged a next).map (place a)).flatMap Transfer.writes))
        ((Part.slot (o.seq % queueSize)).base a) 2 = toLE 2 o.head := by
  have hall : ∀ c ∈ o.staged a next, readBytes (written m
      (((o.staged a next).map (place a)).flatMap Transfer.writes))
        (c.1.base a) c.2.length = c.2 := by
    refine fun c hc => readBytes_place ?_ (fun c hc => ⟨?_, ho.length_le_of_staged hc⟩) hc
    · rw [Posted.map_staged]
      exact ho.nodup_touched
    · exact ho.valid_of_touched (Posted.map_staged a o next ▸ List.mem_map_of_mem hc)
  refine ⟨⟨next, fun c hc => hall c (Posted.Sound.mem_staged hc)⟩, ?_⟩
  exact hall (.slot (o.seq % queueSize), toLE 2 o.head) (by simp [Posted.staged])

/-! ### What the device decodes -/

/-- The device finds a request from a head on: a chain of exactly three descriptors,
for the header, the data and the status. -/
def Decodes (a : Areas) (m : Nat → UInt8) (head : Nat) (r : Request) : Prop :=
  ∃ header data status,
    fetchChain m (a.ringPhys + (ringLayout queueSize).desc) queueSize head =
      [header, data, status] ∧
    header.len = 16 ∧ header.writable = false ∧ readLE m header.addr 4 = r.header.kind.word ∧
      readLE m (header.addr + 8) 8 = r.lba ∧
    data.len = r.len ∧ data.writable = r.out.isNone ∧
      (∀ bytes ∈ r.out, readBytes m data.addr data.len = bytes) ∧
    status.len = 1 ∧ status.writable = true

/-- The buffers of the chain from `head` on. -/
def buffers (a : Areas) (m : Nat → UInt8) (head : Nat) : List (Nat × Nat) :=
  (fetchChain m (a.ringPhys + (ringLayout queueSize).desc) queueSize head).map fun d =>
    (d.addr, d.len)

section Decoding

variable {a : Areas} {m : Nat → UInt8} {o : Posted}

theorem Part.base_lt (a : Areas) {h : Nat} (hh : h < queueSize) :
    (Part.header h).base a < 2 ^ 64 ∧ (Part.data h).base a < 2 ^ 64 ∧
      (Part.status h).base a < 2 ^ 64 := by
  have hm := a.meta_le
  have hd := a.data_le
  simp only [Part.base, queueSize, metaStride, slotBytes, RequestHeader.bytes] at *
  omega

theorem readLE_header {r : Request} (hr : r.WellFormed) {x : Nat}
    (h : readBytes m x RequestHeader.bytes = r.header.toBytes) :
    readLE m x 4 = r.header.kind.word ∧ readLE m (x + 8) 8 = r.lba := by
  obtain ⟨hk, h⟩ := readBytes_eq_append (k := 12) length_toLE h
  obtain ⟨-, hs⟩ := readBytes_eq_append (k := 8) length_toLE h
  refine ⟨readLE_of_readBytes ?_ hk, readLE_of_readBytes ?_ hs⟩
  · cases r.header.kind <;> decide
  · exact hr.1

/-- What the device reads of a descriptor that stands in memory. -/
structure Reads (f : Fetched) (d : Descriptor) : Prop where
  addr : f.addr = d.addr
  len : f.len = d.len
  more : f.more = d.flags.next
  writable : f.writable = d.flags.write
  next : d.next < 2 ^ 16 → f.next = d.next

variable (h : Placed a m o)

include h

theorem Placed.fetch (ho : o.Sound) :
    ∃ header data status next,
      fetchChain m (a.ringPhys + (ringLayout queueSize).desc) queueSize o.head =
        [header, data, status] ∧
      Reads header (o.headerDesc a) ∧ Reads data (o.dataDesc a) ∧
      Reads status (o.statusDesc a next) := by
  obtain ⟨next, h⟩ := h
  have hlt : ∀ i ∈ o.chain, i < 2 ^ 16 := fun i hi => (ho.lt i hi).trans (by decide)
  obtain ⟨hh, hda, hs⟩ := Part.base_lt a (ho.lt o.head (by simp [Posted.chain]))
  have hr : ∀ i (d : Descriptor), (Part.desc i, d.toBytes) ∈ o.described a next →
      d.addr < 2 ^ 64 → d.len < 2 ^ 32 →
      Reads (Virtio.fetch m (a.ringPhys + (ringLayout queueSize).desc) i) d := by
    intro i d hd ha hlen
    have hb := h (.desc i, d.toBytes)
      (List.mem_cons_of_mem _ (List.mem_append_right _ hd))
    rw [Part.base, Nat.mul_comm i] at hb
    obtain ⟨h₁, h₂, h₃, h₄, h₅⟩ := fetch_toBytes hb ha hlen
    exact ⟨h₁, h₂, h₃, h₄, h₅⟩
  have h₁ := hr o.head (o.headerDesc a) (by simp [Posted.described]) hh
    (by simp [Posted.headerDesc, RequestHeader.bytes])
  have h₂ := hr o.data (o.dataDesc a) (by simp [Posted.described]) hda
    (ho.len_le.trans_lt (by decide))
  have h₃ := hr o.status (o.statusDesc a next) (by simp [Posted.described]) hs
    (by simp [Posted.statusDesc])
  refine ⟨_, _, _, next, ?_, h₁, h₂, h₃⟩
  have hnext₁ := h₁.next (hlt o.data (by simp [Posted.chain]))
  have hnext₂ := h₂.next (hlt o.status (by simp [Posted.chain]))
  have hmore₁ : (Virtio.fetch m _ o.head).more = true := h₁.more
  have hmore₂ : (Virtio.fetch m _ o.data).more = true := h₂.more
  have hmore₃ : (Virtio.fetch m _ o.status).more = false := h₃.more
  rw [show fetchChain m _ queueSize o.head = fetchChain m _ (61 + 1 + 1 + 1) o.head from rfl,
    fetchChain_of_more hmore₁, hnext₁, Posted.headerDesc, fetchChain_of_more hmore₂, hnext₂,
    Posted.dataDesc, fetchChain_of_last hmore₃]

theorem Placed.decodes (ho : o.Sound) : Decodes a m o.head o.request := by
  obtain ⟨header, data, status, next, hc, h₁, h₂, h₃⟩ := h.fetch ho
  obtain ⟨next', hp⟩ := h
  have hh := hp (.header o.head, o.request.header.toBytes) List.mem_cons_self
  obtain ⟨hk, hs⟩ := readLE_header ho.wellFormed hh
  refine ⟨header, data, status, hc, h₁.len, h₁.writable, ?_, ?_, h₂.len, h₂.writable, ?_,
    h₃.len, h₃.writable⟩
  · rw [h₁.addr]
    exact hk
  · rw [h₁.addr]
    exact hs
  · intro bytes hb
    have hd := hp (.data o.head, bytes)
      (by simp [Posted.contents, Posted.copied, Option.mem_def.mp hb])
    rw [h₂.addr, h₂.len]
    rwa [ho.wellFormed.2 bytes hb] at hd

theorem Placed.buffers_eq (ho : o.Sound) :
    buffers a m o.head =
      [((Part.header o.head).base a, RequestHeader.bytes),
        ((Part.data o.head).base a, o.request.len), ((Part.status o.head).base a, 1)] := by
  obtain ⟨header, data, status, next, hc, h₁, h₂, h₃⟩ := h.fetch ho
  simp [buffers, hc, h₁.addr, h₁.len, h₂.addr, h₂.len, h₃.addr, h₃.len, Posted.headerDesc,
    Posted.dataDesc, Posted.statusDesc]

theorem buffers_separate {o' : Posted} (h' : Placed a m o') (ho : o.Sound) (ho' : o'.Sound)
    (hne : o.head ≠ o'.head) :
    ∀ b ∈ buffers a m o.head, ∀ b' ∈ buffers a m o'.head, Separate b.1 b.2 b'.1 b'.2 := by
  have hp : ∀ (o : Posted), o.Sound → Placed a m o → ∀ b ∈ buffers a m o.head,
      ∃ p : Part, p.owner = some o.head ∧ b.1 = p.base a ∧ b.2 ≤ p.size := by
    intro o ho h b hb
    rw [h.buffers_eq ho] at hb
    simp only [List.mem_cons, List.not_mem_nil, or_false] at hb
    rcases hb with rfl | rfl | rfl
    · exact ⟨.header o.head, rfl, rfl, le_rfl⟩
    · exact ⟨.data o.head, rfl, rfl, ho.len_le⟩
    · exact ⟨.status o.head, rfl, rfl, le_rfl⟩
  intro b hb b' hb'
  obtain ⟨p, how, ha, hlen⟩ := hp o ho h b hb
  obtain ⟨p', how', ha', hlen'⟩ := hp o' ho' h' b' hb'
  have hh : ∀ (o : Posted), o.head ∈ o.chain := fun o => List.mem_cons_self
  have hsep := Part.separate a
    (Part.valid_of_owner how (ho.lt _ (hh o)))
    (Part.valid_of_owner how' (ho'.lt _ (hh o'))) fun heq => by
      rw [heq, how'] at how
      exact hne (Option.some.inj how).symm
  rw [ha, ha']
  exact hsep.mono (le_rfl) (Nat.add_le_add_left hlen _) (le_rfl)
    (Nat.add_le_add_left hlen' _)

end Decoding

end Qunix.Block
