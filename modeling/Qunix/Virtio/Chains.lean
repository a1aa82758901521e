/-
Where the descriptors of a queue are.

Every descriptor is on the free list or in one live chain, once (`Laid`). A
chain is allocated from the front of the free list and freed onto its front, in
reverse; the chains that are live keep their descriptors in their order, whatever
is allocated, described, published or freed beside them.
-/

import Qunix.Lib.Links
import Qunix.Virtio.Queue

namespace Qunix.Virtio

open Function Qunix.Lib

/-- The descriptors of `l` are a chain of the queue. -/
def SplitQueue.Walks (q : SplitQueue) (l : List Nat) : Prop :=
  Chain (fun i => (q.desc i).next) (fun i => (q.desc i).flags.next) l

/-- The free list is `free`, and the live chains are `chains`. -/
structure Laid (q : SplitQueue) (free : List Nat) (chains : List (List Nat)) : Prop where
  size_le : q.size ≤ 2 ^ 15
  count : q.free = free.length
  links : Links (fun i => (q.desc i).next) q.freeHead free nil
  walks : ∀ c ∈ chains, q.Walks c
  perm : (free ++ chains.flatten).Perm (List.range q.size)

namespace Laid

variable {q q' : SplitQueue} {free c : List Nat} {chains : List (List Nat)} {i h n : Nat}

section

variable (hl : Laid q free chains)

include hl

theorem nodup : (free ++ chains.flatten).Nodup :=
  hl.perm.nodup_iff.mpr List.nodup_range

theorem lt_of_free (hi : i ∈ free) : i < q.size :=
  List.mem_range.mp (hl.perm.mem_iff.mp (List.mem_append_left _ hi))

theorem lt_of_chain (hc : c ∈ chains) (hi : i ∈ c) : i < q.size :=
  List.mem_range.mp (hl.perm.mem_iff.mp
    (List.mem_append_right _ (List.mem_flatten_of_mem hc hi)))

theorem not_mem_of_free (hi : i ∈ free) (hc : c ∈ chains) : i ∉ c :=
  fun hic => (List.nodup_append.mp hl.nodup).2.2 i hi i (List.mem_flatten_of_mem hc hic) rfl

end

theorem not_mem_of_chain (hl : Laid q free (c :: chains)) (hi : i ∈ c) {l : List Nat}
    (hmem : l ∈ chains) : i ∉ l := by
  have hn := (List.nodup_append.mp hl.nodup).2.1
  exact fun hil => (List.nodup_append.mp hn).2.2 i hi i (List.mem_flatten_of_mem hmem hil) rfl

theorem reorder (hl : Laid q free chains) {chains' : List (List Nat)} (hp : chains'.Perm chains) :
    Laid q free chains' where
  size_le := hl.size_le
  count := hl.count
  links := hl.links
  walks c hc := hl.walks c (hp.mem_iff.mp hc)
  perm := (List.Perm.append_left _ hp.flatten).trans hl.perm

theorem of_desc_eq (hl : Laid q free chains) (hs : q'.size = q.size) (hd : q'.desc = q.desc)
    (hh : q'.freeHead = q.freeHead) (hf : q'.free = q.free) : Laid q' free chains where
  size_le := hs ▸ hl.size_le
  count := hf.trans hl.count
  links := by
    rw [hd, hh]
    exact hl.links
  walks c hc := by
    rw [SplitQueue.Walks, hd]
    exact hl.walks c hc
  perm := hs ▸ hl.perm

/-- A fresh queue has every descriptor on its free list, in order. -/
theorem links_new {size k n : Nat} (hn : k + (n + 1) = size) :
    Links (fun i => ((SplitQueue.new size).desc i).next) k (List.range' k (n + 1)) nil := by
  induction n generalizing k with
  | zero =>
    refine ⟨rfl, ?_⟩
    change (if k + 1 < size then k + 1 else nil) = nil
    rw [if_neg (by omega)]
  | succ n ih =>
    refine ⟨rfl, ?_⟩
    change Links _ (if k + 1 < size then k + 1 else nil) _ nil
    rw [if_pos (by omega)]
    exact ih (by omega)

theorem new {size : Nat} (hpos : 0 < size) (hs : size ≤ 2 ^ 15) :
    Laid (.new size) (List.range size) [] where
  size_le := hs
  count := by simp [SplitQueue.new]
  links := by
    obtain ⟨n, rfl⟩ : ∃ n, size = n + 1 := ⟨size - 1, by omega⟩
    rw [List.range_eq_range']
    exact links_new (Nat.zero_add _)
  walks _ hc := nomatch hc
  perm := by simp [SplitQueue.new]

end Laid

namespace SplitQueue

variable {q : SplitQueue} {c rest f : List Nat} {a prev n : Nat}

theorem ne_nil_of_lt (ha : a < q.size) (hs : q.size ≤ 2 ^ 15) : a ≠ nil := by
  unfold nil
  omega

theorem modify_of_lt {f : Descriptor → Descriptor} (h : a < q.size) :
    q.modify a f = .ok { q with desc := update q.desc a (f (q.desc a)) } := if_pos h

theorem allocLoop_first (hh : q.freeHead = a) (ha : a < q.size) (hs : q.size ≤ 2 ^ 15)
    (hf : q.free ≠ 0) :
    allocLoop (n + 1) q nil =
      allocLoop n { q with freeHead := (q.desc a).next, free := q.free - 1 } a := by
  have hne := ne_nil_of_lt ha hs
  subst hh
  simp only [allocLoop, hne, read, ha, hf]
  rfl

theorem allocLoop_succ (hh : q.freeHead = a) (ha : a < q.size) (hs : q.size ≤ 2 ^ 15)
    (hf : q.free ≠ 0) (hp : prev < q.size) :
    allocLoop (n + 1) q prev =
      allocLoop n { q with
        desc := update q.desc prev ((q.desc prev).leadTo a)
        freeHead := (q.desc a).next
        free := q.free - 1 } a := by
  have hne := ne_nil_of_lt ha hs
  have hne' := ne_nil_of_lt hp hs
  subst hh
  simp only [allocLoop, hne, read, ha, hf, ne_eq, hne', modify, hp]
  rfl

/-- The loop takes the first descriptors off the free list and links them up
behind the one taken before. -/
theorem allocLoop_eq (hli : Links (fun i => (q.desc i).next) q.freeHead (c ++ rest) nil)
    (hlt : ∀ i ∈ c, i < q.size) (hs : q.size ≤ 2 ^ 15) (hfr : c.length ≤ q.free)
    (hp : prev < q.size) (hf : (prev :: c ++ rest).Nodup) :
    ∃ last d fh, allocLoop c.length q prev =
        .ok (last, { q with desc := d, freeHead := fh, free := q.free - c.length }) ∧
      last < q.size ∧ Links (fun i => (q.desc i).next) fh rest nil ∧
      update d last (d last).terminate =
        chained Descriptor.leadTo Descriptor.terminate q.desc (prev :: c) := by
  induction c generalizing q prev with
  | nil => exact ⟨prev, q.desc, q.freeHead, rfl, hp, hli, rfl⟩
  | cons a c ih =>
    obtain ⟨hh, ht⟩ := hli
    obtain ⟨hnot, hn⟩ := List.nodup_cons.mp hf
    have ha : a < q.size := hlt a List.mem_cons_self
    rw [List.length_cons] at hfr
    -- The link of `prev` is none of those still to be followed.
    have ho : ∀ x ∈ c ++ rest,
        (update q.desc prev ((q.desc prev).leadTo a) x).next = (q.desc x).next := by
      intro x hx
      rw [update_of_ne]
      rintro rfl
      exact hnot (List.mem_cons_of_mem _ hx)
    obtain ⟨last, d, fh, hlo, hla, hr, hd⟩ := ih
      (q := { q with
        desc := update q.desc prev ((q.desc prev).leadTo a)
        freeHead := (q.desc a).next
        free := q.free - 1 })
      (ht.congr ho) (fun i hi => hlt i (List.mem_cons_of_mem _ hi)) hs
      (by simp only; omega) ha hn
    refine ⟨last, d, fh, ?_, hla, hr.congr fun x hx => ?_, hd⟩
    · rw [List.length_cons, allocLoop_succ hh ha hs (by omega) hp, hlo,
        show q.free - (c.length + 1) = q.free - 1 - c.length by omega]
    · exact (ho x (List.mem_append_right _ hx)).symm

/-- `alloc_chain` takes the first descriptors off the free list and makes a chain
of them. -/
theorem allocChain_eq (hli : Links (fun i => (q.desc i).next) q.freeHead (a :: c ++ rest) nil)
    (hlt : ∀ i ∈ a :: c, i < q.size) (hs : q.size ≤ 2 ^ 15) (hfr : (a :: c).length ≤ q.free)
    (hf : (a :: c ++ rest).Nodup) :
    ∃ fh, q.allocChain (a :: c).length = .ok (some a, { q with
        desc := chained Descriptor.leadTo Descriptor.terminate q.desc (a :: c)
        freeHead := fh
        free := q.free - (a :: c).length }) ∧
      Links (fun i => (q.desc i).next) fh rest nil := by
  obtain ⟨hh, ht⟩ := hli
  have ha : a < q.size := hlt a List.mem_cons_self
  rw [List.length_cons] at hfr ⊢
  obtain ⟨last, d, fh, hlo, hla, hr, hd⟩ := allocLoop_eq
    (q := { q with freeHead := (q.desc a).next, free := q.free - 1 }) ht
    (fun i hi => hlt i (List.mem_cons_of_mem _ hi)) hs (by simp only; omega) ha hf
  refine ⟨fh, ?_, hr⟩
  unfold allocChain
  rw [if_neg (by omega), allocLoop_first hh ha hs (by omega), hlo]
  simp only [bind, Except.bind, modify, hla, hd, hh]
  rw [show q.free - 1 - c.length = q.free - (c.length + 1) by omega]
  rfl

/-- The loop of `free_chain` puts the descriptors of a chain onto the free list,
in reverse. -/
theorem freeLoop_eq (hc : q.Walks (a :: c)) (hno : (a :: c).Nodup)
    (hlt : ∀ i ∈ a :: c, i < q.size)
    (hli : Links (fun i => (q.desc i).next) q.freeHead f nil)
    (hf : ∀ i ∈ a :: c, i ∉ f) (hn : (a :: c).length ≤ n)
    (hfr : q.free + (a :: c).length < 2 ^ 16) :
    ∃ d fh, freeLoop n q a =
        .ok { q with desc := d, freeHead := fh, free := q.free + (a :: c).length } ∧
      Links (fun i => (d i).next) fh ((a :: c).reverse ++ f) nil ∧
      ∀ x, x ∉ a :: c → d x = q.desc x := by
  induction c generalizing q a f n with
  | nil =>
    obtain ⟨n, rfl⟩ : ∃ m, n = m + 1 := ⟨n - 1, by simp at hn; omega⟩
    have ha : a < q.size := hlt a List.mem_cons_self
    have hm : (q.desc a).flags.next = false := hc
    refine ⟨update q.desc a { Descriptor.default with next := q.freeHead }, a, ?_, ?_, ?_⟩
    · simp only [List.length_cons] at hfr
      simp only [freeLoop, read, modify, ha, if_true, bind, Except.bind, hm]
      rw [if_neg (by omega)]
      rfl
    · refine ⟨rfl, ?_⟩
      simp only [update_self]
      refine hli.congr fun x hx => ?_
      rw [update_of_ne]
      rintro rfl
      exact hf x List.mem_cons_self hx
    · intro x hx
      exact update_of_ne (by simpa using hx) ..
  | cons b c ih =>
    obtain ⟨n, rfl⟩ : ∃ m, n = m + 1 := ⟨n - 1, by simp at hn; omega⟩
    have ha : a < q.size := hlt a List.mem_cons_self
    obtain ⟨hm, hnext, ht⟩ := hc
    obtain ⟨hnot, hn'⟩ := List.nodup_cons.mp hno
    have ho : ∀ x, x ≠ a →
        update q.desc a { Descriptor.default with next := q.freeHead } x = q.desc x :=
      fun x hx => update_of_ne hx ..
    have hne : ∀ x ∈ b :: c, x ≠ a := by
      rintro x hx rfl
      exact hnot hx
    simp only [List.length_cons] at hn hfr
    obtain ⟨d, fh, hlo, hr, hd⟩ := ih
      (q := { q with
        desc := update q.desc a { Descriptor.default with next := q.freeHead }
        freeHead := a
        free := q.free + 1 })
      (f := a :: f) (n := n)
      (ht.congr (fun x hx _ => by simp [ho x (hne x hx)])
        fun x hx => by simp [ho x (hne x hx)])
      hn' (fun i hi => hlt i (List.mem_cons_of_mem _ hi))
      ⟨rfl, by
        simp only [update_self]
        refine hli.congr fun x hx => ?_
        rw [ho]
        rintro rfl
        exact hf x List.mem_cons_self hx⟩
      (fun i hi hmem => by
        rcases List.mem_cons.mp hmem with rfl | hmem
        · exact hnot hi
        · exact hf i (List.mem_cons_of_mem _ hi) hmem)
      (by simp only [List.length_cons]; omega) (by simp only [List.length_cons]; omega)
    refine ⟨d, fh, ?_, ?_, fun x hx => ?_⟩
    · simp only [freeLoop, read, modify, ha, if_true, bind, Except.bind, hm, hnext]
      rw [if_neg (by omega)]
      simp only [List.length_cons] at hlo ⊢
      rw [show q.free + (c.length + 1 + 1) = q.free + 1 + (c.length + 1) by omega]
      exact hlo
    · simpa using hr
    · rw [hd x (fun h => hx (List.mem_cons_of_mem _ h))]
      refine ho x ?_
      rintro rfl
      exact hx List.mem_cons_self

end SplitQueue

/-! ### What the operations do to the layout -/

namespace Laid

variable {q q' : SplitQueue} {free c : List Nat} {chains : List (List Nat)} {a i n : Nat}

theorem allocChain (hl : Laid q free chains) (hn : 0 < n) (hle : n ≤ free.length) :
    ∃ a c rest d fh, free = a :: c ++ rest ∧ (a :: c).length = n ∧
      q.allocChain n =
        .ok (some a, { q with desc := d, freeHead := fh, free := q.free - n }) ∧
      Laid { q with desc := d, freeHead := fh, free := q.free - n } rest ((a :: c) :: chains) := by
  obtain ⟨a, c, hac⟩ : ∃ a c, free.take n = a :: c := by
    cases hfr : free.take n with
    | nil =>
      have := congrArg List.length hfr
      simp only [List.length_take, List.length_nil] at this
      omega
    | cons a c => exact ⟨a, c, rfl⟩
  have hlen : (a :: c).length = n := by rw [← hac, List.length_take]; omega
  have hs : free = a :: c ++ free.drop n := by rw [← hac, List.take_append_drop]
  obtain ⟨rest, hr⟩ : ∃ rest, rest = free.drop n := ⟨_, rfl⟩
  rw [← hr] at hs
  have hno := hl.nodup
  have hli := hl.links
  have hc := hl.count
  have hp := hl.perm
  have hlt : ∀ i ∈ a :: c, i < q.size := fun i hi =>
    hl.lt_of_free (by rw [hs]; exact List.mem_append_left _ hi)
  rw [hs] at hno hli hc hp
  have hf := (List.nodup_append.mp hno).1
  obtain ⟨fh, ha, hl'⟩ := SplitQueue.allocChain_eq hli hlt hl.size_le
    (by rw [hc, List.length_append]; omega) hf
  rw [hlen] at ha
  refine ⟨a, c, rest, _, fh, hs, hlen, ha, hl.size_le, ?_, ?_, ?_, ?_⟩
  · simp only [hc, List.length_append]
    omega
  · refine hl'.congr fun x hx => ?_
    simp only
    rw [chained_of_not_mem fun hxc => (List.nodup_append.mp hf).2.2 x hxc x hx rfl]
  · intro l hmem
    rcases List.mem_cons.mp hmem with rfl | hmem
    · exact chained_chain Descriptor.next (·.flags.next) (by simp)
        (List.nodup_append.mp hf).1 (fun _ _ => ⟨rfl, rfl⟩) fun _ => rfl
    · have hsa : ∀ x ∈ l, chained Descriptor.leadTo Descriptor.terminate q.desc (a :: c) x =
          q.desc x := by
        intro x hx
        refine chained_of_not_mem fun hxc => ?_
        exact (List.nodup_append.mp hno).2.2 x (List.mem_append_left _ hxc) x
          (List.mem_flatten_of_mem hmem hx) rfl
      exact (hl.walks l hmem).congr (fun x hx _ => by simp [hsa x hx])
        fun x hx => by simp [hsa x hx]
  · refine List.Perm.trans ?_ hp
    simp only [List.flatten_cons, ← List.append_assoc]
    exact List.Perm.append_right _ List.perm_append_comm

theorem freeChain (hl : Laid q free ((a :: c) :: chains)) :
    ∃ d fh, q.freeChain a = .ok { q with
        desc := d, freeHead := fh, free := q.free + (a :: c).length,
        inFlight := update q.inFlight a false } ∧
      Laid { q with
        desc := d, freeHead := fh, free := q.free + (a :: c).length,
        inFlight := update q.inFlight a false } ((a :: c).reverse ++ free) chains := by
  have hn := hl.nodup
  have hm : a :: c ∈ (a :: c) :: chains := List.mem_cons_self
  have hlt : ∀ i ∈ a :: c, i < q.size := fun i hi => hl.lt_of_chain hm hi
  obtain ⟨hf, hr, ha⟩ := List.nodup_append.mp hn
  obtain ⟨hac, -, ha'⟩ := List.nodup_append.mp hr
  have ht : q.free + (a :: c).length ≤ q.size := by
    have := hl.perm.length_eq
    simp only [List.flatten_cons, List.length_append, List.length_range, ← hl.count] at this
    omega
  have hsi := hl.size_le
  obtain ⟨d, fh, hlo, hli, hd⟩ := SplitQueue.freeLoop_eq (hl.walks _ hm) hac hlt hl.links
    (fun i hi hmem => ha i hmem i (List.mem_append_left _ hi) rfl) (n := q.size)
    (by omega) (by omega)
  refine ⟨d, fh, ?_, hl.size_le, ?_, hli, ?_, ?_⟩
  · simp only [SplitQueue.freeChain, hlo, bind, Except.bind, hlt a List.mem_cons_self]
    rfl
  · simp only [List.length_append, List.length_reverse, hl.count]
    omega
  · intro l hmem
    have hs : ∀ x ∈ l, d x = q.desc x := fun x hx =>
      hd x fun hxc => ha' x hxc x (List.mem_flatten_of_mem hmem hx) rfl
    exact (hl.walks l (List.mem_cons_of_mem _ hmem)).congr
      (fun x hx _ => by simp [hs x hx]) fun x hx => by simp only [hs x hx]
  · refine List.Perm.trans ?_ hl.perm
    simp only [List.flatten_cons, ← List.append_assoc]
    refine List.Perm.append_right _ ?_
    exact (List.perm_append_comm).trans (List.Perm.append_left _ (List.reverse_perm _))

theorem describe (hl : Laid q free chains) (hi : i < q.size) (addr len : Nat) (writable : Bool) :
    ∃ d, q.describe i addr len writable = .ok { q with desc := d } ∧
      Laid { q with desc := d } free chains ∧ d = update q.desc i { q.desc i with
        addr := addr, len := len, flags := ⟨(q.desc i).flags.next, writable⟩ } := by
  refine ⟨_, SplitQueue.modify_of_lt hi, ⟨hl.size_le, hl.count, ?_, fun l hmem => ?_, hl.perm⟩,
    rfl⟩
  · refine hl.links.congr fun x _ => ?_
    by_cases hx : x = i
    · simp [hx]
    · simp [update_of_ne hx]
  · refine (hl.walks l hmem).congr (fun x _ _ => ?_) fun x _ => ?_
    · by_cases hx : x = i
      · simp [hx]
      · simp [update_of_ne hx]
    · by_cases hx : x = i
      · simp [hx]
      · simp [update_of_ne hx]

end Laid

/-- The descriptors that `next_in_chain` walks over from `idx`, `n` at most. -/
def SplitQueue.chain (q : SplitQueue) : Nat → Nat → List Nat
  | 0, _ => []
  | n + 1, idx => idx :: if (q.desc idx).flags.next then q.chain n (q.desc idx).next else []

theorem SplitQueue.chain_eq {q : SplitQueue} {a n : Nat} {c : List Nat} (h : q.Walks (a :: c))
    (hn : (a :: c).length ≤ n) : q.chain n a = a :: c := by
  induction c generalizing a n with
  | nil =>
    obtain ⟨n, rfl⟩ : ∃ m, n = m + 1 := ⟨n - 1, by simp at hn; omega⟩
    have hm : (q.desc a).flags.next = false := h
    simp [SplitQueue.chain, hm]
  | cons b c ih =>
    obtain ⟨n, rfl⟩ : ∃ m, n = m + 1 := ⟨n - 1, by simp at hn; omega⟩
    obtain ⟨hm, hne, ht⟩ := h
    simp only [List.length_cons] at hn
    have hne : (q.desc a).next = b := hne
    rw [SplitQueue.chain, if_pos hm, hne, ih ht (by simp only [List.length_cons]; omega)]

end Qunix.Virtio
