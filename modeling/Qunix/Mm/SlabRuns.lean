/-
Runs of the kernel heap.

A `World` is the heap with what its owners know: the blocks they hold and the
layout each was asked for. Owners write any byte of the size they asked for. The
blocks they hold and the blocks on the lists are pairwise apart inside the part of
the region that was handed out so far, which is what keeps the links in the free
blocks out of the owners' reach.
-/

import Qunix.Lib.Bands
import Qunix.Lib.Links
import Qunix.Lib.Run
import Qunix.Mm.Slab

namespace Qunix.Mm.Slab

open Qunix.Lib Function

/-- A block of the region, with the bin it belongs to. -/
structure Chunk where
  base : Nat
  bin : Bin
deriving DecidableEq, Repr

/-- The reserved extents have no byte in common. -/
def Chunk.Apart (c d : Chunk) : Prop := Separate c.base c.bin.extent d.base d.bin.extent

/-- A block in use, with the layout it was asked for. -/
structure Owned where
  ptr : Nat
  layout : Layout
deriving DecidableEq, Repr

def Owned.chunk (o : Owned) : Chunk := ⟨o.ptr, o.layout.bin⟩

structure World where
  heap : SlabHeap
  live : List Owned

inductive Call where
  | alloc (layout : Layout)
  | dealloc (ptr : Nat) (layout : Layout)
  /-- An owner stores a byte into a block it holds. -/
  | write (addr : Nat) (byte : UInt8)
deriving DecidableEq, Repr

namespace World

def Allowed (w : World) : Call → Prop
  | .alloc _ => True
  | .dealloc ptr layout => ⟨ptr, layout⟩ ∈ w.live
  | .write addr _ => ∃ o ∈ w.live, o.ptr ≤ addr ∧ addr < o.ptr + o.layout.size

instance (w : World) : (call : Call) → Decidable (w.Allowed call)
  | .alloc _ => inferInstanceAs (Decidable True)
  | .dealloc _ _ => inferInstanceAs (Decidable (_ ∈ _))
  | .write _ _ => inferInstanceAs (Decidable (∃ o ∈ w.live, _ ∧ _))

def perform (w : World) : Call → Except Panic World
  | .alloc layout => do
    let (ptr, heap) ← w.heap.alloc layout
    pure (if ptr = 0 then { w with heap := heap } else ⟨heap, ⟨ptr, layout⟩ :: w.live⟩)
  | .dealloc ptr layout => do
    let heap ← w.heap.dealloc ptr layout
    pure ⟨heap, w.live.erase ⟨ptr, layout⟩⟩
  | .write addr byte =>
    .ok { w with heap := { w.heap with mem := update w.heap.mem addr byte } }

/-- One allowed call that returns. -/
def step (w : World) (call : Call) : Option World :=
  if w.Allowed call then (w.perform call).toOption else none

def Step (w : World) (call : Call) (w' : World) : Prop := w.step call = some w'

end World

/-! ### The lists and the blocks on them -/

/-- The blocks of one bin, in the order of the list. -/
def listOf (free : List Chunk) (bin : Bin) : List Nat :=
  (free.filter fun c => decide (c.bin = bin)).map Chunk.base

theorem listOf_eq (free : List Chunk) (bin : Bin) :
    listOf free bin = (band Chunk.bin free bin).map Chunk.base := rfl

theorem listOf_cons (c : Chunk) (free : List Chunk) (bin : Bin) :
    listOf (c :: free) bin =
      if c.bin = bin then c.base :: listOf free bin else listOf free bin := by
  by_cases h : c.bin = bin <;> simp [listOf, h]

variable {free : List Chunk} {bin : Bin} {p va last : Nat} {h : SlabHeap}

theorem mem_listOf :
    p ∈ listOf free bin ↔ ⟨p, bin⟩ ∈ free := by
  simp only [listOf, List.mem_map, List.mem_filter, decide_eq_true_eq]
  constructor
  · rintro ⟨⟨base, bin'⟩, ⟨hc, rfl⟩, rfl⟩
    exact hc
  · intro hc
    exact ⟨⟨p, bin⟩, ⟨hc, rfl⟩, rfl⟩

/-- The first block of a bin can be taken out of the free blocks without disturbing
the other lists. -/
theorem exists_first {rest : List Nat} (h : listOf free bin = p :: rest) :
    ∃ l₁ l₂, free = l₁ ++ ⟨p, bin⟩ :: l₂ ∧ listOf (l₁ ++ l₂) bin = rest ∧
      ∀ bin', bin' ≠ bin → listOf (l₁ ++ l₂) bin' = listOf free bin' := by
  obtain ⟨c, rest, hb, rfl, rfl⟩ := List.map_eq_cons_iff.mp h
  have hc : c.bin = bin := (mem_band.mp (hb ▸ List.mem_cons_self)).2
  subst hc
  obtain ⟨l₁, l₂, rfl, hl₁, hl₂, ho⟩ :=
    exists_split (show band Chunk.bin free c.bin = [] ++ c :: rest from hb)
  refine ⟨l₁, l₂, rfl, ?_, fun bin' hne => ?_⟩
  · rw [listOf_eq, band_append, hl₁, hl₂, List.nil_append]
  · rw [listOf_eq, listOf_eq, ho bin' hne]

/-- The state of the heap: what owners hold and what is free is laid out apart in
`va .. bumpNext`, and the lists run through the free blocks. -/
structure Laid (va last : Nat) (h : SlabHeap) (live : List Owned) (free : List Chunk) : Prop where
  low : va ≤ h.bumpNext
  high : h.bumpNext ≤ last
  backing : h.bumpEnd = last
  lists : ∀ bin, bin.Valid → Links h.link (h.head bin) (listOf free bin) 0
  kept : ∀ c ∈ free, c.bin.Valid ∧ c.bin.Recycled
  placed : ∀ c ∈ live.map Owned.chunk ++ free,
    c.bin.align ∣ c.base ∧ va ≤ c.base ∧ c.base + c.bin.extent ≤ h.bumpNext
  apart : (live.map Owned.chunk ++ free).Pairwise Chunk.Apart
  room : va + ((live.map Owned.chunk ++ free).map (·.bin.extent)).sum ≤ h.bumpNext
  charged : h.allocated = (live.map (·.layout.bin.charge)).sum

namespace Laid

variable {va last : Nat} {h h' : SlabHeap} {live live' : List Owned} {free free' : List Chunk}
  {layout : Layout} {o : Owned}

theorem pairwise_apart_perm {l l' : List Chunk} (hp : l.Perm l') (hl : l.Pairwise Chunk.Apart) :
    l'.Pairwise Chunk.Apart :=
  hl.perm hp fun hcd => Separate.symm hcd

section

variable (hl : Laid va last h live free)

include hl

/-- What the owners hold adds up to at most what was handed out. -/
theorem charged_le :
    va + h.allocated + (free.map (·.bin.extent)).sum ≤ h.bumpNext := by
  have hle : ∀ l : List Owned,
      (l.map (·.layout.bin.charge)).sum ≤ ((l.map Owned.chunk).map (·.bin.extent)).sum := by
    intro l
    induction l with
    | nil => exact le_rfl
    | cons o l ih =>
      exact Nat.add_le_add (Bin.charge_le_extent _) ih
  have hr := hl.room
  rw [List.map_append, List.sum_append] at hr
  have := hle live
  rw [hl.charged]
  omega

/-- The blocks may change hands: their bins, their list and the heap's counters
follow. -/
theorem regroup
    (hp : (live.map Owned.chunk ++ free).Perm (live'.map Owned.chunk ++ free'))
    (hn : h'.bumpNext = h.bumpNext) (hend : h'.bumpEnd = h.bumpEnd)
    (hli : ∀ bin, bin.Valid → Links h'.link (h'.head bin) (listOf free' bin) 0)
    (hk : ∀ c ∈ free', c.bin.Valid ∧ c.bin.Recycled)
    (hch : h'.allocated = (live'.map (·.layout.bin.charge)).sum) :
    Laid va last h' live' free' where
  low := hn ▸ hl.low
  high := hn ▸ hl.high
  backing := hend.trans hl.backing
  lists := hli
  kept := hk
  placed c hc := hn ▸ hl.placed c (hp.mem_iff.mpr hc)
  apart := pairwise_apart_perm hp hl.apart
  room := by
    rw [hn, ← (hp.map _).sum_eq]
    exact hl.room
  charged := hch

theorem takeLive (ho : o ∈ live) :
    Laid va last h (o :: live.erase o) free := by
  have hp := List.perm_cons_erase ho
  refine hl.regroup ((hp.map _).append_right _) rfl rfl hl.lists hl.kept ?_
  rw [hl.charged, (hp.map _).sum_eq]

/-! ### Allocation -/

theorem fresh (hla : last < 2 ^ 64) {start : Nat} (ha : layout.bin.align ∣ start)
    (hlow : h.bumpNext ≤ start) (hh : start + layout.bin.extent ≤ last) :
    ∃ h', SlabHeap.charge { h with bumpNext := start + layout.bin.extent } layout.bin.charge
        = .ok h' ∧ Laid va last h' (⟨start, layout⟩ :: live) free ∧
      h'.bumpNext = start + layout.bin.extent := by
  have hch := hl.charged_le
  have hle := Bin.charge_le_extent layout.bin
  refine ⟨_, if_pos (show h.allocated + layout.bin.charge < 2 ^ 64 by omega), ?_, rfl⟩
  refine ⟨?_, hh, hl.backing, hl.lists, hl.kept, fun c hc => ?_, ?_, ?_, ?_⟩
  · exact (hl.low.trans hlow).trans (Nat.le_add_right _ _)
  · rcases List.mem_cons.mp hc with rfl | hc
    · exact ⟨ha, hl.low.trans hlow, le_rfl⟩
    · obtain ⟨hdvd, hlo, hhi⟩ := hl.placed c hc
      exact ⟨hdvd, hlo, by simp only; omega⟩
  · refine List.pairwise_cons.mpr ⟨fun c hc => ?_, hl.apart⟩
    obtain ⟨-, -, hhi⟩ := hl.placed c hc
    exact .inr (hhi.trans hlow)
  · have hr := hl.room
    simp only [List.map_cons, List.cons_append, List.sum_cons, Owned.chunk] at hr ⊢
    omega
  · simp only [List.map_cons, List.sum_cons, hl.charged]
    omega

/-- The list of a bin is empty, or its head is a free block and links to the rest. -/
theorem head_cases (hv : bin.Valid) :
    h.head bin = 0 ∧ listOf free bin = [] ∨
      ∃ rest, listOf free bin = h.head bin :: rest ∧ ⟨h.head bin, bin⟩ ∈ free ∧
        Links h.link (h.link (h.head bin)) rest 0 := by
  have hli := hl.lists bin hv
  cases hlist : listOf free bin with
  | nil =>
    rw [hlist] at hli
    exact .inl ⟨hli, rfl⟩
  | cons p rest =>
    rw [hlist] at hli
    obtain ⟨hp, hre⟩ := hli
    rw [hp]
    exact .inr ⟨rest, rfl, mem_listOf.mp (by rw [hlist]; exact List.mem_cons_self), hre⟩

theorem reuse (hla : last < 2 ^ 64) (hh : h.head layout.bin ≠ 0) :
    ∃ h' free', (h.setHead layout.bin (h.link (h.head layout.bin))).charge layout.bin.charge
        = .ok h' ∧ Laid va last h' (⟨h.head layout.bin, layout⟩ :: live) free' ∧
      h'.bumpNext = h.bumpNext ∧ free.Perm (⟨h.head layout.bin, layout.bin⟩ :: free') := by
  have hv := layout.bin_valid
  obtain ⟨rest, hlist, hmem, hre⟩ := (hl.head_cases hv).resolve_left fun hnil => hh hnil.1
  obtain ⟨l₁, l₂, hf, hbin, ho⟩ := exists_first hlist
  have hr := (hl.kept _ hmem).2
  have hch := hl.charged_le
  have hle := Bin.charge_le_extent layout.bin
  have he : layout.bin.extent ≤ (free.map (·.bin.extent)).sum := by
    rw [hf]
    simp only [List.map_append, List.map_cons, List.sum_append, List.sum_cons]
    omega
  have hhi := hl.high
  refine ⟨_, l₁ ++ l₂, if_pos (by rw [SlabHeap.setHead_allocated]; omega), ?_,
    SlabHeap.setHead_bumpNext, hf ▸ List.perm_middle⟩
  refine hl.regroup ?_ SlabHeap.setHead_bumpNext SlabHeap.setHead_bumpEnd ?_ ?_ ?_
  · rw [hf, List.map_cons, ← List.append_assoc, ← List.append_assoc]
    exact List.perm_middle
  · intro bin hb
    have hlink : ∀ p, (h.setHead layout.bin p).link = h.link := fun p => by
      funext q
      rw [SlabHeap.link, SlabHeap.setHead_mem, SlabHeap.link]
    refine show Links (h.setHead layout.bin _).link ((h.setHead layout.bin _).head bin) _ 0 from ?_
    rw [hlink, SlabHeap.head_setHead hr hv hb]
    split_ifs with heq
    · rw [heq, hbin]
      exact hre
    · rw [ho bin heq]
      exact hl.lists bin hb
  · intro c hc
    refine hl.kept c ?_
    rw [hf]
    rcases List.mem_append.mp hc with hc | hc
    · exact List.mem_append_left _ hc
    · exact List.mem_append_right _ (List.mem_cons_of_mem _ hc)
  · simp only [SlabHeap.setHead_allocated, List.map_cons, List.sum_cons, hl.charged]
    omega

theorem listOf_eq_nil (hva : 0 < va) (hv : bin.Valid) (hh : h.head bin = 0) :
    listOf free bin = [] := by
  rcases hl.head_cases hv with ⟨-, hnil⟩ | ⟨rest, -, hmem, -⟩
  · exact hnil
  · obtain ⟨-, hlow, -⟩ := hl.placed _ (List.mem_append_right _ hmem)
    simp only at hlow
    omega

/-- `alloc` refuses and changes nothing, or hands out a block: of the region if the
list of its bin is empty, else of the list. -/
theorem alloc (hva : 0 < va) (hla : last < 2 ^ 64) (layout : Layout) :
    h.alloc layout = .ok (0, h) ∨ ∃ ptr h' free', ptr ≠ 0 ∧ h.alloc layout = .ok (ptr, h') ∧
      Laid va last h' (⟨ptr, layout⟩ :: live) free' ∧
      (listOf free layout.bin = [] ∧ free' = free ∧ h.bumpNext < h'.bumpNext ∨
        h'.bumpNext = h.bumpNext ∧ free.Perm (⟨ptr, layout.bin⟩ :: free')) := by
  rw [SlabHeap.alloc_eq]
  by_cases hh : h.head layout.bin = 0
  · obtain ⟨k, hk⟩ := layout.bin_valid.align_eq
    rw [if_pos hh, hk]
    rcases h.bump_cases layout.bin.extent k with hn | ⟨start, hdvd, hlow, hhi, hs⟩
    · rw [hn]
      exact .inl rfl
    · rw [hs]
      have hne : start ≠ 0 := by
        have := hl.low
        omega
      obtain ⟨h', hc, hl', hnext⟩ := hl.fresh hla (hk ▸ hdvd) hlow (hl.backing ▸ hhi)
      have he := layout.bin_valid.sixteen_le_extent
      refine .inr ⟨start, h', free, hne, ?_, hl', .inl
        ⟨hl.listOf_eq_nil hva layout.bin_valid hh, rfl, by omega⟩⟩
      simp only [ne_eq, hne, hc]
      rfl
  · obtain ⟨h', free', hc, hl', hm⟩ := hl.reuse hla hh
    rw [if_neg hh]
    refine .inr ⟨_, h', free', hh, ?_, hl', .inr hm⟩
    simp only [ne_eq, hh, hc]
    rfl

/-! ### Freeing -/

/-- Every pointer in a list head is below the end of the region. -/
theorem head_lt (hla : last < 2 ^ 64) (hv : bin.Valid) : h.head bin < 256 ^ 8 := by
  rcases hl.head_cases hv with ⟨hnil, -⟩ | ⟨rest, -, hmem, -⟩
  · rw [hnil]
    decide
  · obtain ⟨-, -, hhi⟩ := hl.placed _ (List.mem_append_right _ hmem)
    have hn := hl.high
    simp only at hhi
    omega

end

section

variable (hl : Laid va last h (o :: live) free)

include hl

/-- A store that stays inside a block in use leaves every link alone. -/
theorem link_of_owned {a n : Nat} (hlo : o.ptr ≤ a)
    (hhi : a + n ≤ o.ptr + o.layout.bin.extent) (hv : bin.Valid) {q : Nat}
    (hq : q ∈ listOf free bin) : Separate q 8 a n := by
  have hmem := mem_listOf.mp hq
  have ha : o.chunk.Apart ⟨q, bin⟩ :=
    (List.pairwise_cons.mp hl.apart).1 _ (List.mem_append_right _ hmem)
  have h16 := hv.sixteen_le_extent
  exact (Separate.symm ha).mono (le_rfl) (by simp only; omega) hlo hhi

/-- The lists after the first bytes of a block were made a link to the old head. -/
theorem lists_push (hla : last < 2 ^ 64)
    (hr : o.layout.bin.Recycled) (hv : bin.Valid) :
    let g := (h.setLink o.ptr (h.head o.layout.bin)).setHead o.layout.bin o.ptr
    Links g.link (g.head bin) (listOf (o.chunk :: free) bin) 0 := by
  intro g
  have hva := o.layout.bin_valid
  have hli : ∀ q, g.link q =
      readLE (writeBytes h.mem o.ptr (toLE 8 (h.head o.layout.bin))) q 8 := fun q => by
    rw [SlabHeap.link, SlabHeap.setHead_mem, SlabHeap.setLink]
  have hs : g.link o.ptr = h.head o.layout.bin := by
    rw [hli, readLE_writeBytes (hl.head_lt hla hva)]
  have ho : Links g.link (h.head bin) (listOf free bin) 0 := by
    refine (hl.lists bin hv).congr fun q hq => ?_
    have h16 := hva.sixteen_le_extent
    rw [hli, readLE_writeBytes_of_separate, SlabHeap.link]
    exact hl.link_of_owned (le_rfl) (by rw [length_toLE]; omega) hv hq
  have hh : g.head bin = if bin = o.layout.bin then o.ptr else h.head bin := by
    rw [SlabHeap.head_setHead hr hva hv]
    cases bin <;> rfl
  rw [hh, listOf_cons]
  rcases eq_or_ne bin o.layout.bin with rfl | hbin
  · rw [if_pos rfl, if_pos (show o.chunk.bin = o.layout.bin from rfl)]
    refine ⟨rfl, ?_⟩
    rw [show o.chunk.base = o.ptr from rfl, hs]
    exact ho
  · rw [if_neg hbin, if_neg (show o.chunk.bin ≠ bin from Ne.symm hbin)]
    exact ho

theorem dealloc (hla : last < 2 ^ 64) :
    ∃ h' free', h.dealloc o.ptr o.layout = .ok h' ∧ Laid va last h' live free' ∧
      h'.bumpNext = h.bumpNext ∧
      free' = if o.layout.bin.Recycled then o.chunk :: free else free := by
  have hva := o.layout.bin_valid
  have hch := hl.charged
  simp only [List.map_cons, List.sum_cons] at hch
  rw [SlabHeap.dealloc_eq]
  by_cases hr : o.layout.bin.Recycled
  · rw [if_pos hr]
    refine ⟨_, o.chunk :: free, if_pos ?_, ?_, SlabHeap.setHead_bumpNext, (if_pos hr).symm⟩
    · rw [SlabHeap.setHead_allocated]
      simp only [SlabHeap.setLink]
      omega
    · refine hl.regroup (List.perm_middle.symm) SlabHeap.setHead_bumpNext SlabHeap.setHead_bumpEnd
        (fun bin hv => ?_) (fun c hc => ?_) ?_
      · exact hl.lists_push hla hr hv
      · rcases List.mem_cons.mp hc with rfl | hc
        · exact ⟨hva, hr⟩
        · exact hl.kept c hc
      · simp only [SlabHeap.setHead_allocated, SlabHeap.setLink]
        omega
  · rw [if_neg hr]
    refine ⟨_, free, if_pos (by omega), ?_, rfl, (if_neg hr).symm⟩
    refine ⟨hl.low, hl.high, hl.backing, hl.lists, hl.kept, fun c hc => ?_, ?_, ?_, ?_⟩
    · exact hl.placed c (List.mem_cons_of_mem _ hc)
    · exact (List.pairwise_cons.mp hl.apart).2
    · have hro := hl.room
      simp only [List.map_cons, List.cons_append, List.sum_cons] at hro
      simp only
      omega
    · simp only
      omega

theorem write {addr : Nat} (byte : UInt8)
    (hlo : o.ptr ≤ addr) (hhi : addr < o.ptr + o.layout.size) :
    Laid va last { h with mem := update h.mem addr byte } (o :: live) free := by
  have hs := o.layout.size_le_extent
  refine hl.regroup (List.Perm.refl _) rfl rfl (fun bin hv => ?_) hl.kept hl.charged
  have hh : SlabHeap.head { h with mem := update h.mem addr byte } bin = h.head bin := by
    cases bin <;> rfl
  refine (hl.lists bin hv).congr fun q hq => ?_
  have hsep := hl.link_of_owned (n := 1) hlo (by omega) hv hq
  refine congrArg ofLE (readBytes_congr fun i hi => update_of_ne ?_ ..)
  unfold Separate at hsep
  omega

end

end Laid

/-! ### Runs -/

variable {w w' : World} {call : Call}

theorem World.step_eq_some : w.step call = some w' ↔ w.Allowed call ∧ w.perform call = .ok w' :=
  ite_toOption_eq_some

/-- What a call does to the blocks in use, to those on the lists and to the end of
what was handed out. -/
inductive Moved (w w' : World) (free : List Chunk) : List Chunk → Call → Prop where
  | refused {layout : Layout} : w' = w → Moved w w' free free (.alloc layout)
  | carved {layout : Layout} {ptr : Nat} : listOf free layout.bin = [] →
      w.heap.bumpNext < w'.heap.bumpNext → w'.live = ⟨ptr, layout⟩ :: w.live →
      Moved w w' free free (.alloc layout)
  | reused {layout : Layout} {ptr : Nat} {free' : List Chunk} :
      free.Perm (⟨ptr, layout.bin⟩ :: free') → w'.heap.bumpNext = w.heap.bumpNext →
      w'.live = ⟨ptr, layout⟩ :: w.live → Moved w w' free free' (.alloc layout)
  | freed {ptr : Nat} {layout : Layout} : ⟨ptr, layout⟩ ∈ w.live →
      w'.heap.bumpNext = w.heap.bumpNext → w'.live = w.live.erase ⟨ptr, layout⟩ →
      Moved w w' free (if layout.bin.Recycled then ⟨ptr, layout.bin⟩ :: free else free)
        (.dealloc ptr layout)
  | wrote {addr : Nat} {byte : UInt8} : w'.heap.bumpNext = w.heap.bumpNext → w'.live = w.live →
      Moved w w' free free (.write addr byte)

theorem Laid.perform (hl : Laid va last w.heap w.live free) (hva : 0 < va) (hla : last < 2 ^ 64)
    (ha : w.Allowed call) :
    ∃ w' free', w.perform call = .ok w' ∧ Laid va last w'.heap w'.live free' ∧
      Moved w w' free free' call := by
  cases call with
  | alloc layout =>
    rcases hl.alloc hva hla layout with hno | ⟨ptr, h', free', hne, hs, hl', hm⟩
    · refine ⟨w, free, ?_, hl, .refused rfl⟩
      simp only [World.perform, hno]
      rfl
    · refine ⟨⟨h', ⟨ptr, layout⟩ :: w.live⟩, free', ?_, hl', ?_⟩
      · simp only [World.perform, hs, bind, Except.bind, hne]
        rfl
      · rcases hm with ⟨hnil, rfl, hlt⟩ | ⟨hn, hp⟩
        · exact .carved hnil hlt rfl
        · exact .reused hp hn rfl
  | dealloc ptr layout =>
    obtain ⟨h', free', hd, hl', hn, rfl⟩ := (hl.takeLive ha).dealloc hla
    refine ⟨⟨h', w.live.erase ⟨ptr, layout⟩⟩, _, ?_, hl', .freed ha hn rfl⟩
    simp only [World.perform]
    rw [hd]
    rfl
  | write addr byte =>
    obtain ⟨o, ho, hlo, hhi⟩ := ha
    have hl' := (hl.takeLive ho).write byte hlo hhi
    refine ⟨_, free, rfl, ?_, .wrote rfl rfl⟩
    have hp := List.perm_cons_erase ho
    refine hl'.regroup ((hp.symm.map _).append_right _) rfl rfl hl'.lists hl'.kept ?_
    exact hl.charged

/-- The blocks of `free` are those on the lists of the heap, each list in its order. -/
structure FreeListed (h : SlabHeap) (free : List Chunk) : Prop where
  sized : ∀ cls < classes.length, Links h.link (h.freeLists cls) (listOf free (.sized cls)) 0
  large : ∀ i < largeListsLen,
    Links h.link (h.largeLists i) (listOf free (.large (2 ^ (i + 5)))) 0
  bins : ∀ c ∈ free, (∃ cls < classes.length, c.bin = .sized cls) ∨
    ∃ i < largeListsLen, c.bin = .large (2 ^ (i + 5))

theorem Laid.freeListed {live : List Owned} (hl : Laid va last h live free) :
    FreeListed h free where
  sized cls hcls := hl.lists (.sized cls) hcls
  large i hi := by
    have hlen : largeListsLen = 18 := rfl
    have hli := hl.lists (.large (2 ^ (i + 5))) ⟨i + 5, by omega, by omega, rfl⟩
    simpa [SlabHeap.head, largeIndex_two_pow (show i + 5 < 64 by omega), hi] using hli
  bins c hc := by
    obtain ⟨hv, hr⟩ := hl.kept c hc
    cases hbin : c.bin with
    | sized cls =>
      rw [hbin] at hv
      exact .inl ⟨cls, hv, rfl⟩
    | large extent =>
      rw [hbin] at hv hr
      obtain ⟨k, hlo, hhi, rfl⟩ := hv
      simp only [Bin.Recycled, largeIndex_two_pow hhi, Option.isSome_ite] at hr
      exact .inr ⟨k - 5, hr, by rw [Nat.sub_add_cancel hlo]⟩

theorem setBacking_new {mem : Nat → UInt8} {len : Nat}
    (hb : (SlabHeap.new mem).setBacking va len = .ok h) :
    va + len < 2 ^ 64 ∧ { SlabHeap.new mem with bumpNext := va, bumpEnd := va + len } = h := by
  rw [SlabHeap.setBacking] at hb
  cases hsum : checkedAdd va len with
  | none =>
    rw [hsum] at hb
    cases hb
  | some last =>
    rw [hsum] at hb
    obtain ⟨rfl, hlt⟩ := checkedAdd_eq_some hsum
    exact ⟨hlt, Except.ok.inj hb⟩

theorem Laid.start (mem : Nat → UInt8) (va len : Nat) :
    Laid va (va + len) { SlabHeap.new mem with bumpNext := va, bumpEnd := va + len } [] [] where
  low := le_rfl
  high := Nat.le_add_right _ _
  backing := rfl
  lists bin _ := by
    cases bin with
    | sized cls => rfl
    | large extent =>
      simp only [SlabHeap.head]
      cases largeIndex extent <;> rfl
  kept c hc := by cases hc
  placed c hc := by cases hc
  apart := List.Pairwise.nil
  room := le_rfl
  charged := rfl

/-- The heap in use: what owners hold and what is on the lists is apart and inside the
region, blocks suit their layouts, the counter is exact, every call returns, and an
allocation that fails changes nothing. -/
theorem heap_sound {mem : Nat → UInt8} {va len : Nat} {h : SlabHeap} {calls : List Call}
    {w : World} (hva : 0 < va) (hback : (SlabHeap.new mem).setBacking va len = .ok h)
    (hrun : Run World.Step ⟨h, []⟩ calls w) :
    (∃ free, FreeListed w.heap free ∧
      (w.live.map Owned.chunk ++ free).Pairwise Chunk.Apart ∧
      ∀ c ∈ w.live.map Owned.chunk ++ free, va ≤ c.base ∧ c.base + c.bin.extent ≤ va + len) ∧
    (∀ o ∈ w.live, o.layout.align ∣ o.ptr ∧ o.layout.size ≤ o.layout.bin.extent) ∧
    w.heap.allocated = (w.live.map (·.layout.bin.charge)).sum ∧
    (∀ call, w.Allowed call → ∃ w', w.perform call = .ok w') ∧
    ∀ layout h', w.heap.alloc layout = .ok (0, h') → h' = w.heap := by
  obtain ⟨hlast, rfl⟩ := setBacking_new hback
  obtain ⟨free, hl⟩ : ∃ free, Laid va (va + len) w.heap w.live free := by
    refine hrun.invariant (p := fun w => ∃ free, Laid va (va + len) w.heap w.live free) ?_
      ⟨[], Laid.start mem va len⟩
    rintro w call w' ⟨free, hl⟩ hstep
    obtain ⟨hallowed, hperform⟩ := World.step_eq_some.mp hstep
    obtain ⟨w'', free', hperform', hl', -⟩ := hl.perform hva hlast hallowed
    obtain rfl := Except.ok.inj (hperform'.symm.trans hperform)
    exact ⟨free', hl'⟩
  refine ⟨⟨free, hl.freeListed, hl.apart, fun c hc => ?_⟩, fun o ho => ?_, hl.charged,
    fun call hallowed => ?_, fun layout h' hnull => ?_⟩
  · obtain ⟨-, hlo, hhi⟩ := hl.placed c hc
    exact ⟨hlo, hhi.trans hl.high⟩
  · obtain ⟨hdvd, -⟩ := hl.placed o.chunk (List.mem_append_left _ (List.mem_map_of_mem ho))
    exact ⟨o.layout.align_dvd_bin.trans hdvd, o.layout.size_le_extent⟩
  · obtain ⟨w', -, hperform, -⟩ := hl.perform hva hlast hallowed
    exact ⟨w', hperform⟩
  · rcases hl.alloc hva hlast layout with hnone | ⟨ptr, h'', -, hne, hsome, -⟩
    · rw [hnone] at hnull
      cases hnull
      rfl
    · rw [hsome] at hnull
      cases hnull
      exact absurd rfl hne

/-- A small block is freed and its list runs through it; a large one is freed and used
again for a stricter alignment. -/
theorem heap_sound_recycled :
    ∃ h, (SlabHeap.new fun _ => 0).setBacking 4096 65536 = .ok h ∧
    ∃ w, Run World.Step ⟨h, []⟩
      [.alloc ⟨9, 4, by decide, by decide⟩, .alloc ⟨12, 1, by decide, by decide⟩,
        .write 4120 255, .dealloc 4096 ⟨9, 4, by decide, by decide⟩, .write 4112 7,
        .alloc ⟨3000, 8, by decide, by decide⟩, .dealloc 8192 ⟨3000, 8, by decide, by decide⟩,
        .alloc ⟨40, 4096, by decide, by decide⟩, .alloc ⟨2 ^ 40, 1, by decide, by decide⟩] w ∧
      w.heap.freeLists 1 = 4096 ∧ w.live.map Owned.ptr = [8192, 4112] ∧
      w.heap.allocated = 4096 + 12 ∧
      ∃ free, FreeListed w.heap free ∧ (w.live.map Owned.chunk ++ free).Pairwise Chunk.Apart := by
  refine ⟨_, rfl, ?_⟩
  refine exists_run_of_exec (by decide +kernel) fun w hrun hfacts =>
    and_assoc.mp (and_assoc.mp ⟨hfacts, ?_⟩)
  have hback : (SlabHeap.new fun _ => 0).setBacking 4096 65536 = .ok _ := rfl
  obtain ⟨⟨free, hfree, hapart, -⟩, -⟩ := heap_sound (by decide) hback hrun
  exact ⟨free, hfree, hapart⟩

end Qunix.Mm.Slab
