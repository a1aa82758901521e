/-
The free lists in memory.

`Threaded b held lists` says that the words of `b` thread the addresses
`lists o` into the free list of every order `o`, and that the blocks on those
lists together with the blocks `held` outside them are packed into the recorded
regions. `held` is the allocator's other half: the blocks its clients own,
and, in the middle of a call, the block in the allocator's hands.

`push` moves a held block onto a list, `pop` and `unlink` move a listed block
into `held`. None of the three looks at a block it does not mention, which is
what the frame lemmas on words say: block heads are page aligned, so the three
bookkeeping words of different blocks never overlap.
-/

import Qunix.Lib.DList
import Qunix.Mm.Words

namespace Qunix.Mm

open Qunix.Lib Function

/-! ### Blocks on the lists -/

/-- The blocks that `lists` puts on the free lists of all orders. -/
def freeBlocks (lists : Nat → List Nat) : List Block :=
  (List.range (maxOrder + 1)).flatMap fun o => (lists o).map fun a => ⟨a, o⟩

variable {lists : Nat → List Nat} {o a : Nat} {l₁ l₂ : List Nat}

theorem mem_freeBlocks {c : Block} :
    c ∈ freeBlocks lists ↔ c.order ≤ maxOrder ∧ c.base ∈ lists c.order := by
  obtain ⟨base, order⟩ := c
  simp only [freeBlocks, List.mem_flatMap, List.mem_range, List.mem_map, Block.mk.injEq]
  constructor
  · rintro ⟨o, ho, x, hx, rfl, rfl⟩
    exact ⟨by omega, hx⟩
  · rintro ⟨ho, hx⟩
    exact ⟨order, by omega, base, hx, rfl, rfl⟩

section

variable (ho : o ≤ maxOrder)

include ho

theorem freeBlocks_perm (hl : lists o = l₁ ++ a :: l₂) :
    (freeBlocks lists).Perm (⟨a, o⟩ :: freeBlocks (update lists o (l₁ ++ l₂))) := by
  have hgen : ∀ os : List Nat, os.Nodup → o ∈ os →
      (os.flatMap fun k => (lists k).map fun x => (⟨x, k⟩ : Block)).Perm
        (⟨a, o⟩ :: os.flatMap fun k => (update lists o (l₁ ++ l₂) k).map fun x => ⟨x, k⟩) := by
    intro os
    induction os with
    | nil => simp
    | cons k os ih =>
      intro hn hmem
      obtain ⟨hk, hn⟩ := List.nodup_cons.mp hn
      simp only [List.flatMap_cons]
      rcases eq_or_ne k o with rfl | hko
      · have hr : (os.flatMap fun j => (update lists k (l₁ ++ l₂) j).map
            fun x => (⟨x, j⟩ : Block)) = os.flatMap fun j => (lists j).map fun x => ⟨x, j⟩ := by
          refine List.flatMap_congr fun j hj => ?_
          have hne : j ≠ k := fun heq => hk (heq ▸ hj)
          rw [update_of_ne hne]
        rw [hr, update_self, hl, List.map_append, List.map_append]
        exact List.perm_middle.append_right _
      · have hmem : o ∈ os := (List.mem_cons.mp hmem).resolve_left fun h => hko h.symm
        rw [update_of_ne hko]
        exact ((ih hn hmem).append_left _).trans List.perm_middle
  exact hgen _ List.nodup_range (List.mem_range.mpr (by omega))

/-- Putting one address in front of one list adds one block. -/
theorem freeBlocks_cons_perm :
    (freeBlocks (update lists o (a :: lists o))).Perm (⟨a, o⟩ :: freeBlocks lists) := by
  have hmid : update lists o (a :: lists o) o = [] ++ a :: lists o := update_self ..
  have h := freeBlocks_perm ho hmid
  rwa [List.nil_append, update_idem, update_eq_self] at h

/-- The total size of the blocks on the lists. -/
def listedBytes (lists : Nat → List Nat) : Nat :=
  ((freeBlocks lists).map (Block.size pageSize)).sum

theorem listedBytes_remove (hl : lists o = l₁ ++ a :: l₂) :
    listedBytes lists = blockSize o + listedBytes (update lists o (l₁ ++ l₂)) := by
  unfold listedBytes
  rw [((freeBlocks_perm ho hl).map _).sum_eq]
  simp [blockSize_eq]

theorem listedBytes_push :
    listedBytes (update lists o (a :: lists o)) = blockSize o + listedBytes lists := by
  unfold listedBytes
  rw [((freeBlocks_cons_perm ho).map _).sum_eq]
  simp [blockSize_eq]

end

/-! ### Words -/

namespace Buddy

variable {b : Buddy} {held : List Block} {pa v x i j : Nat}

def next (b : Buddy) (a : Nat) : Nat := b.word a offNext

def prev (b : Buddy) (a : Nat) : Nat := b.word a offPrev

theorem word_setWord (hx : pageSize ∣ x) (hpa : pageSize ∣ pa) (hi : i < pageSize)
    (hj : j < pageSize) :
    (b.setWord pa i v).word x j = if x = pa ∧ j = i then v else b.word x j := by
  unfold word setWord
  by_cases h : x = pa ∧ j = i
  · obtain ⟨rfl, rfl⟩ := h
    simp
  · rw [if_neg h]
    exact update_of_ne (fun heq => h (add_offset_inj hx hpa hj hi heq)) ..

theorem word_push (hpa : pageSize ∣ pa) (hh : b.freeLists o = NIL ∨ pageSize ∣ b.freeLists o)
    (hx : pageSize ∣ x) (hj : j < pageSize) :
    (b.push pa o).word x j =
      if b.freeLists o ≠ NIL ∧ x = b.freeLists o ∧ j = offPrev then pa
      else if x = pa ∧ j = offTag then freeTag pa o
      else if x = pa ∧ j = offPrev then NIL
      else if x = pa ∧ j = offNext then b.freeLists o
      else b.word x j := by
  have h0 : offNext < pageSize := by decide
  have h8 : offPrev < pageSize := by decide
  have h16 : offTag < pageSize := by decide
  have hnew : ∀ c : Buddy, c = ((b.setWord pa offNext (b.freeLists o)).setWord pa offPrev
      NIL).setWord pa offTag (freeTag pa o) → c.word x j =
        if x = pa ∧ j = offTag then freeTag pa o
        else if x = pa ∧ j = offPrev then NIL
        else if x = pa ∧ j = offNext then b.freeLists o
        else b.word x j := by
    rintro c rfl
    rw [word_setWord hx hpa h16 hj, word_setWord hx hpa h8 hj, word_setWord hx hpa h0 hj]
  by_cases hnil : b.freeLists o = NIL
  · rw [← hnew _ rfl]
    simp [push, hnil, word]
  · have hmem : (b.push pa o).mem = ((((b.setWord pa offNext (b.freeLists o)).setWord pa offPrev
        NIL).setWord pa offTag (freeTag pa o)).setWord (b.freeLists o) offPrev pa).mem := by
      simp [push, hnil]
    have hh := hh.resolve_left hnil
    have hw := word_setWord (b := ((b.setWord pa offNext (b.freeLists o)).setWord pa offPrev
      NIL).setWord pa offTag (freeTag pa o)) (v := pa) hx hh h8 hj
    rw [word, hmem, ← word, hw, hnew _ rfl]
    simp [hnil]

theorem word_push_of_ne (hpa : pageSize ∣ pa)
    (hh : b.freeLists o = NIL ∨ pageSize ∣ b.freeLists o) (hx : pageSize ∣ x)
    (hj : j < pageSize) (hne : x ≠ pa) (hp : x = b.freeLists o → j ≠ offPrev) :
    (b.push pa o).word x j = b.word x j := by
  rw [word_push hpa hh hx hj, if_neg fun h => hp h.2.1 h.2.2]
  simp [hne]

@[simp] theorem push_regions : (b.push pa o).regions = b.regions := by
  simp only [push]
  split <;> rfl

@[simp] theorem push_freeLists : (b.push pa o).freeLists = update b.freeLists o pa := by
  simp only [push]
  split <;> rfl

@[simp] theorem push_nonempty : (b.push pa o).nonempty = b.nonempty ||| 1 <<< o := by
  simp only [push]
  split <;> rfl

@[simp] theorem push_freeBytes : (b.push pa o).freeBytes = b.freeBytes := by
  simp only [push]
  split <;> rfl

/-- The counters that list operations must not touch. -/
def counters (b : Buddy) : List Nat :=
  [b.foreignFrees, b.rejectedUnlinks, b.truncatedLists, b.edgeDroppedBytes,
    b.refusedRegionBytes, b.refusedRegions, b.malformedRegionBytes]

@[simp] theorem push_counters : (b.push pa o).counters = b.counters := by
  simp only [push]
  split <;> rfl

/-! ### Threaded lists -/

/-- The words of `b` thread `lists`, and the listed blocks and the blocks `held`
elsewhere are packed into the regions. -/
structure Threaded (b : Buddy) (held : List Block) (lists : Nat → List Nat) : Prop where
  packing : Packing pageSize b.regions (held ++ freeBlocks lists)
  linked : ∀ o ≤ maxOrder, Linked b.next b.prev NIL NIL (b.freeLists o) (lists o)
  tagged : ∀ o ≤ maxOrder, ∀ a ∈ lists o, b.word a offTag = freeTag a o
  nonempty : ∀ n, b.nonempty.testBit n = true ↔ n ≤ maxOrder ∧ lists n ≠ []

/-- No head of a block in `held` carries a free tag. -/
def Untagged (b : Buddy) (held : List Block) : Prop :=
  ∀ c ∈ held, ∀ o ≤ maxOrder, b.word c.base offTag ≠ freeTag c.base o

namespace Threaded

theorem mem_blocks (_ : Threaded b held lists) (ho : o ≤ maxOrder) (ha : a ∈ lists o) :
    (⟨a, o⟩ : Block) ∈ held ++ freeBlocks lists :=
  List.mem_append_right _ (mem_freeBlocks.mpr ⟨ho, ha⟩)

variable {c : Block}

section

variable (h : Threaded b held lists)

include h

theorem dvd_of_mem (hc : c ∈ held ++ freeBlocks lists) :
    pageSize ∣ c.base :=
  Block.Aligned.pageSize_dvd (h.packing.aligned c hc)

theorem dvd_of_listed (ho : o ≤ maxOrder) (ha : a ∈ lists o) :
    pageSize ∣ a :=
  h.dvd_of_mem (h.mem_blocks ho ha)

theorem eq_of_base_eq {d : Block} (hc : c ∈ held ++ freeBlocks lists)
    (hd : d ∈ held ++ freeBlocks lists) (hb : c.base = d.base) : c = d :=
  h.packing.eq_of_covers hc hd (c.covers_base pageSize_pos)
    (hb ▸ d.covers_base pageSize_pos)

theorem lists_nodup (ho : o ≤ maxOrder) : (lists o).Nodup := by
  have hn := (List.nodup_append.mp (h.packing.nodup pageSize_pos)).2.1
  have hsub : ((lists o).map fun a => (⟨a, o⟩ : Block)).Nodup :=
    (List.nodup_flatMap.mp hn).1 o (List.mem_range.mpr (by omega))
  exact hsub.of_map _

theorem order_unique {k : Nat} (ho : o ≤ maxOrder) (hk : k ≤ maxOrder)
    (ha : a ∈ lists o) (ha' : a ∈ lists k) : o = k := by
  have heq := h.eq_of_base_eq (h.mem_blocks ho ha) (h.mem_blocks hk ha') rfl
  exact congrArg Block.order heq

theorem held_ne_listed (hc : c ∈ held) (ho : o ≤ maxOrder)
    (ha : a ∈ lists o) : c.base ≠ a := by
  rintro rfl
  have hn := List.nodup_append.mp (h.packing.nodup pageSize_pos)
  have hmem : (⟨c.base, o⟩ : Block) ∈ freeBlocks lists := mem_freeBlocks.mpr ⟨ho, ha⟩
  have heq := h.eq_of_base_eq (List.mem_append_left _ hc) (List.mem_append_right held hmem) rfl
  exact hn.2.2 c hc ⟨c.base, o⟩ hmem heq

theorem head_dvd (ho : o ≤ maxOrder) :
    b.freeLists o = NIL ∨ pageSize ∣ b.freeLists o := by
  by_cases hnil : b.freeLists o = NIL
  · exact .inl hnil
  · exact .inr (h.dvd_of_listed ho ((h.linked o ho).head_mem hnil))

end

theorem perm_push (ho : o ≤ maxOrder) :
    ((⟨pa, o⟩ :: held) ++ freeBlocks lists).Perm
      (held ++ freeBlocks (update lists o (pa :: lists o))) := by
  exact List.perm_middle.symm.trans ((freeBlocks_cons_perm ho).symm.append_left held)

theorem perm_detach (ho : o ≤ maxOrder) (hl : lists o = l₁ ++ a :: l₂) :
    (held ++ freeBlocks lists).Perm
      ((⟨a, o⟩ :: held) ++ freeBlocks (update lists o (l₁ ++ l₂))) :=
  ((freeBlocks_perm ho hl).append_left held).trans List.perm_middle

theorem push (h : Threaded b (⟨pa, o⟩ :: held) lists) (ho : o ≤ maxOrder) :
    Threaded (b.push pa o) held (update lists o (pa :: lists o)) := by
  have hpa : pageSize ∣ pa := h.dvd_of_mem (c := ⟨pa, o⟩) (by simp)
  have hp : pa ≠ NIL := fun heq => pageSize_not_dvd_NIL (heq ▸ hpa)
  have hh := h.head_dvd ho
  have hf : ∀ k ≤ maxOrder, ∀ y ∈ lists k, y ≠ pa := fun k hk y hy heq =>
    h.held_ne_listed (c := ⟨pa, o⟩) (by simp) hk hy heq.symm
  have hhe : b.freeLists o ≠ NIL → b.freeLists o ≠ pa := fun hnil =>
    hf o ho _ ((h.linked o ho).head_mem hnil)
  have h0 : offNext < pageSize := by decide
  have h8 : offPrev < pageSize := by decide
  have h16 : offTag < pageSize := by decide
  -- Listed blocks keep their words, apart from the back link of the old head.
  have hke : ∀ k ≤ maxOrder, ∀ y ∈ lists k, ∀ j < pageSize, (y = b.freeLists o → j ≠ offPrev) →
      (b.push pa o).word y j = b.word y j := fun k hk y hy j hj hpr =>
    word_push_of_ne hpa hh (h.dvd_of_listed hk hy) hj (hf k hk y hy) hpr
  refine ⟨?_, fun k hk => ?_, fun k hk y hy => ?_, fun n => ?_⟩
  · rw [push_regions]
    exact h.packing.perm (perm_push ho)
  · rw [push_freeLists]
    rcases eq_or_ne k o with rfl | hko
    · rw [update_self, update_self]
      refine (h.linked k hk).push ?_ hp ?_ ?_ ?_ ?_ ?_
      · exact List.nodup_cons.mpr ⟨fun hmem => hf k hk pa hmem rfl, h.lists_nodup hk⟩
      · rw [next, word_push hpa hh hpa h0]
        simp [offNext, offTag, offPrev]
      · rw [prev, word_push hpa hh hpa h8, if_neg fun hc => hhe hc.1 hc.2.1.symm]
        simp [offTag, offPrev]
      · intro hnil
        rw [prev, word_push hpa hh (hh.resolve_left hnil) h8, if_pos ⟨hnil, rfl, rfl⟩]
      · exact fun y hy => hke k hk y hy _ h0 fun _ => by decide
      · exact fun y hy hne => hke k hk y hy _ h8 fun heq => absurd heq hne
    · rw [update_of_ne hko, update_of_ne hko]
      refine (h.linked k hk).congr (fun y hy => hke k hk y hy _ h0 fun _ => by decide)
        fun y hy => hke k hk y hy _ h8 fun heq => ?_
      -- The old head is on the list of `o`, so it is not on this one.
      have hnil : b.freeLists o ≠ NIL := fun hnil =>
        pageSize_not_dvd_NIL (hnil ▸ heq ▸ h.dvd_of_listed hk hy)
      have hmem := (h.linked o ho).head_mem hnil
      exact absurd (h.order_unique hk ho hy (heq ▸ hmem)) hko
  · rw [update_apply] at hy
    split_ifs at hy with hko
    · subst hko
      rcases List.mem_cons.mp hy with rfl | hy
      · rw [word_push hpa hh hpa h16]
        simp [offTag, offPrev]
      · rw [hke k hk y hy _ h16 fun _ => by decide, h.tagged k hk y hy]
    · rw [hke k hk y hy _ h16 fun _ => by decide, h.tagged k hk y hy]
  · rw [push_nonempty, Nat.testBit_or, Nat.one_shiftLeft]
    rcases eq_or_ne n o with rfl | hno
    · simp [ho]
    · have hon : o ≠ n := fun heq => hno heq.symm
      rw [update_of_ne hno, ← h.nonempty n]
      simp [hon]

theorem untagged_push (h : Threaded b (⟨pa, o⟩ :: held) lists) (ho : o ≤ maxOrder)
    (hu : Untagged b held) : Untagged (b.push pa o) held := by
  intro c hc k hk
  have hpa : pageSize ∣ pa := h.dvd_of_mem (c := ⟨pa, o⟩) (by simp)
  have hcd : pageSize ∣ c.base := h.dvd_of_mem (by simp [hc])
  have hne : c.base ≠ pa := by
    intro heq
    have hs := h.eq_of_base_eq (d := ⟨pa, o⟩) (by simp [hc]) (by simp) heq
    have hn := h.packing.nodup pageSize_pos
    exact (List.nodup_cons.mp hn).1 (by simp [← hs, hc])
  rw [word_push_of_ne hpa (h.head_dvd ho) hcd (by decide) hne fun _ => by decide]
  exact hu c hc k hk

end Threaded

/-! ### Taking a block off its list -/

/-- `b'` is `b` with `a` spliced out of the free list of `o`, as `pop` does it
at the head and `unlink` anywhere. -/
structure Detached (b b' : Buddy) (a o : Nat) : Prop where
  regions : b'.regions = b.regions
  counters : b'.counters = b.counters
  freeBytes : b'.freeBytes = b.freeBytes
  freeLists : b'.freeLists = if b.prev a = NIL then update b.freeLists o (b.next a) else b.freeLists
  nonempty : b'.nonempty =
    if b.prev a = NIL ∧ b.next a = NIL then b.nonempty &&& notU 32 (1 <<< o) else b.nonempty
  word : ∀ x j, pageSize ∣ x → j < pageSize → b'.word x j =
    if x = a ∧ j = offTag then 0
    else if x = b.next a ∧ j = offPrev then b.prev a
    else if x = b.prev a ∧ j = offNext then b.next a
    else b.word x j

variable {link : Nat}

/-- A store through a link that is skipped when the link is `NIL`. -/
theorem word_setWord_link (hlink : link = NIL ∨ pageSize ∣ link) (hx : pageSize ∣ x)
    (hi : i < pageSize) (hj : j < pageSize) :
    (if link ≠ NIL then b.setWord link i v else b).word x j =
      if x = link ∧ j = i then v else b.word x j := by
  by_cases hnil : link = NIL
  · have hxl : x ≠ link := fun heq => pageSize_not_dvd_NIL (hnil ▸ heq ▸ hx)
    simp [hnil, hnil ▸ hxl]
  · rw [if_pos hnil, word_setWord hx (hlink.resolve_left hnil) hi hj]

theorem plausibleLink_cases (h : b.plausibleLink link o = true) :
    link = NIL ∨ blockSize o ∣ link ∧ ∃ r ∈ b.regions, r.1 ≤ link ∧ link < r.2 := by
  unfold Buddy.plausibleLink at h
  simp only [Bool.or_eq_true, beq_iff_eq, Bool.and_eq_true] at h
  rcases h with hnil | ⟨hdvd, hs⟩
  · exact .inl hnil
  · obtain ⟨r, hr⟩ := Option.isSome_iff_exists.mp hs
    have hin := List.find?_some hr
    simp only [Bool.and_eq_true, decide_eq_true_eq] at hin
    exact .inr ⟨Nat.dvd_of_mod_eq_zero hdvd, r, List.mem_of_find?_eq_some hr, hin⟩

theorem freeNeighbour_links (h : b.freeNeighbour link o = true) :
    b.plausibleLink link o = true := by
  unfold Buddy.freeNeighbour at h
  simp only [Bool.or_eq_true, Bool.and_eq_true] at h
  rcases h with hnil | ⟨hlink, -⟩
  · simp [Buddy.plausibleLink, hnil]
  · exact hlink

theorem freeNeighbour_tag (h : b.freeNeighbour link o = true) :
    link = NIL ∨ b.word link offTag = freeTag link o := by
  unfold Buddy.freeNeighbour at h
  simp only [Bool.or_eq_true, beq_iff_eq, Bool.and_eq_true] at h
  exact h.imp_right And.right

theorem plausibleLink_dvd (h : b.plausibleLink link o = true) :
    link = NIL ∨ pageSize ∣ link :=
  (plausibleLink_cases h).imp_right fun hlink => (pageSize_dvd_blockSize o).trans hlink.1

/-- `unlink` of a tagged block whose neighbours are free splices it out. -/
theorem unlink_detached (ha : pageSize ∣ a) (htag : b.word a offTag = freeTag a o)
    (hp : b.freeNeighbour (b.word a offPrev) o = true)
    (hn : b.freeNeighbour (b.word a offNext) o = true) :
    ∃ b', b.unlink a o = .ok (true, b') ∧ Detached b b' a o := by
  have hpr : b.prev a = NIL ∨ pageSize ∣ b.prev a :=
    plausibleLink_dvd (freeNeighbour_links hp)
  have hne : b.next a = NIL ∨ pageSize ∣ b.next a :=
    plausibleLink_dvd (freeNeighbour_links hn)
  let b₀ := { b with freeLists := update b.freeLists o (b.next a) }
  let b₁ := if b.prev a = NIL then
      if b.next a = NIL then { b₀ with nonempty := b.nonempty &&& notU 32 (1 <<< o) } else b₀
    else b.setWord (b.prev a) offNext (b.next a)
  let b₂ := if b.next a ≠ NIL then b₁.setWord (b.next a) offPrev (b.prev a) else b₁
  refine ⟨b₂.setWord a offTag 0, ?_, ?_⟩
  · simp only [unlink, htag, ne_eq, hn, hp]
    rfl
  · have hword₁ : ∀ x j, pageSize ∣ x → j < pageSize → b₁.word x j =
        if x = b.prev a ∧ j = offNext then b.next a else b.word x j := by
      intro x j hx hj
      rw [← word_setWord_link hpr hx (by decide) hj]
      simp only [b₁, ne_eq]
      split
      · split <;> rfl
      · rfl
    refine ⟨?_, ?_, ?_, ?_, ?_, fun x j hx hj => ?_⟩
    case refine_6 =>
      rw [word_setWord hx ha (by decide) hj,
        word_setWord_link hne hx (by decide) hj, hword₁ x j hx hj]
    all_goals
      simp only [b₂, b₁]
      repeat' split
    all_goals first | rfl | simp_all

namespace Threaded

variable {b' : Buddy} {link k y : Nat}

section Detach

variable (h : Threaded b held lists) (ho : o ≤ maxOrder)

include h ho

/-- The links of a listed block are `NIL` or listed with it. -/
theorem next_cases (ha : a ∈ lists o) : b.next a = NIL ∨ b.next a ∈ lists o :=
  (h.linked o ho).next_mem ha

theorem prev_cases (ha : a ∈ lists o) : b.prev a = NIL ∨ b.prev a ∈ lists o :=
  (h.linked o ho).prev_mem ha

section

variable (hlink : link = NIL ∨ link ∈ lists o)

include hlink

theorem link_dvd : link = NIL ∨ pageSize ∣ link :=
  hlink.imp_right (h.dvd_of_listed ho)

theorem plausibleLink : b.plausibleLink link o = true := by
  rcases hlink with rfl | hmem
  · simp [Buddy.plausibleLink]
  · have hb := h.mem_blocks ho hmem
    have ha := h.packing.aligned _ hb
    obtain ⟨r, hr, hlo, hhi⟩ := h.packing.inside _ hb
    have hpos := blockSize_pos o
    simp only [Block.Aligned, Block.size_pageSize] at ha hlo hhi
    have hre : (b.regionOf link).isSome = true := by
      rw [regionOf, List.find?_isSome]
      exact ⟨r, hr, by simp only [Bool.and_eq_true, decide_eq_true_eq]; omega⟩
    simp [Buddy.plausibleLink, hre, Nat.mod_eq_zero_of_dvd ha]

theorem freeNeighbour : b.freeNeighbour link o = true := by
  rcases hlink with rfl | hmem
  · simp [Buddy.freeNeighbour]
  · simp [Buddy.freeNeighbour, h.plausibleLink ho (.inr hmem), h.tagged o ho link hmem]

end

/-- A block listed elsewhere is neither a link nor a member of the list of `o`. -/
theorem ne_link (hk : k ≤ maxOrder) (hko : k ≠ o)
    (hy : y ∈ lists k) (hlink : link = NIL ∨ link ∈ lists o) :
    y ≠ link := by
  rintro rfl
  rcases hlink with rfl | hmem
  · exact pageSize_not_dvd_NIL (h.dvd_of_listed hk hy)
  · exact hko (h.order_unique hk ho hy hmem)

section

variable (hl : lists o = l₁ ++ a :: l₂)

include hl

theorem prev_eq_nil_iff : b.prev a = NIL ↔ l₁ = [] := by
  have hli := hl ▸ h.linked o ho
  rcases hli.prev_mid with ⟨hnil, heq⟩ | hmem
  · simp [hnil, heq]
  · simp [hli.ne_nil (List.mem_append_left _ hmem), List.ne_nil_of_mem hmem]

theorem next_eq_nil_iff : b.next a = NIL ↔ l₂ = [] := by
  have hli := hl ▸ h.linked o ho
  rcases hli.next_mid with ⟨hnil, heq⟩ | hmem
  · simp [hnil, heq]
  · simp [hli.ne_nil (a := b.next a) (by simp [hmem]), List.ne_nil_of_mem hmem]

/-- What is left on the lists was listed before and is not the block taken. -/
theorem mem_of_mem_update (hk : k ≤ maxOrder) (hy : y ∈ update lists o (l₁ ++ l₂) k) :
    y ∈ lists k ∧ y ≠ a := by
  rw [update_apply] at hy
  split_ifs at hy with hko
  · subst hko
    refine ⟨?_, ?_⟩
    · rw [hl]
      simp only [List.mem_append] at hy ⊢
      tauto
    · rintro rfl
      have hn := hl ▸ h.lists_nodup hk
      exact (List.nodup_cons.mp (List.nodup_middle.mp hn)).1 hy
  · exact ⟨hy, h.ne_link ho hk hko hy (.inr (by simp [hl]))⟩

variable (hd : Detached b b' a o)

include hd

theorem linked_detach (hk : k ≤ maxOrder) :
    Linked b'.next b'.prev NIL NIL (b'.freeLists k) (update lists o (l₁ ++ l₂) k) := by
  have ha : a ∈ lists o := by simp [hl]
  have h0 : offNext < pageSize := by decide
  have h8 : offPrev < pageSize := by decide
  have hn : ∀ y, pageSize ∣ y → b'.next y = if y = b.prev a then b.next a else b.next y := by
    intro y hy
    rw [next, hd.word y _ hy h0]
    simp [offNext, offPrev, offTag, next]
  have hp : ∀ y, pageSize ∣ y → b'.prev y = if y = b.next a then b.prev a else b.prev y := by
    intro y hy
    rw [prev, hd.word y _ hy h8]
    simp [offNext, offPrev, offTag, prev]
  rw [hd.freeLists]
  rcases eq_or_ne k o with rfl | hko
  · have hli := hl ▸ h.linked k hk
    have hdvd : ∀ y ∈ l₁ ++ l₂, pageSize ∣ y := fun y hy =>
      h.dvd_of_listed hk (h.mem_of_mem_update hk hl hk (by rwa [update_self])).1
    have hres := hli.unlink (hl ▸ h.lists_nodup hk) (fun hmem => hli.ne_nil hmem rfl)
      (fun y hy => hn y (hdvd y hy)) fun y hy => hp y (hdvd y hy)
    rw [update_self]
    by_cases hnil : l₁ = []
    · rw [if_pos hnil] at hres
      rwa [if_pos ((h.prev_eq_nil_iff hk hl).mpr hnil), update_self]
    · rw [if_neg hnil] at hres
      rwa [if_neg fun heq => hnil ((h.prev_eq_nil_iff hk hl).mp heq)]
  · have hh : (if b.prev a = NIL then update b.freeLists o (b.next a) else b.freeLists) k =
        b.freeLists k := by
      split
      · exact update_of_ne hko ..
      · rfl
    rw [hh, update_of_ne hko]
    refine (h.linked k hk).congr (fun y hy => ?_) fun y hy => ?_
    · rw [hn y (h.dvd_of_listed hk hy), if_neg (h.ne_link ho hk hko hy (h.prev_cases ho ha))]
    · rw [hp y (h.dvd_of_listed hk hy), if_neg (h.ne_link ho hk hko hy (h.next_cases ho ha))]

theorem nonempty_detach (n : Nat) :
    b'.nonempty.testBit n = true ↔ n ≤ maxOrder ∧ update lists o (l₁ ++ l₂) n ≠ [] := by
  have hbit := h.nonempty n
  have hmax : maxOrder < 32 := by decide
  rw [hd.nonempty]
  simp only [h.prev_eq_nil_iff ho hl, h.next_eq_nil_iff ho hl]
  rcases eq_or_ne n o with rfl | hno
  · by_cases hnil : l₁ = [] ∧ l₂ = []
    · rw [hnil.1, hnil.2]
      simp [show n < 32 by omega]
    · rw [if_neg hnil, hbit]
      simp [hl, hnil]
  · rw [update_of_ne hno, ← hbit]
    split
    · have hon : o ≠ n := fun heq => hno heq.symm
      simp only [Nat.testBit_and, testBit_notU, Nat.one_shiftLeft, Nat.testBit_two_pow, hon,
        decide_false, Bool.xor_false, Bool.and_eq_true, decide_eq_true_eq, and_iff_left_iff_imp]
      intro hset
      have := (hbit.mp hset).1
      omega
    · rfl

theorem detach : Threaded b' (⟨a, o⟩ :: held) (update lists o (l₁ ++ l₂)) := by
  refine ⟨?_, fun k hk => h.linked_detach ho hl hd hk, fun k hk y hy => ?_,
    h.nonempty_detach ho hl hd⟩
  · rw [hd.regions]
    exact h.packing.perm (perm_detach ho hl)
  · obtain ⟨hy, hne⟩ := h.mem_of_mem_update ho hl hk hy
    rw [hd.word y _ (h.dvd_of_listed hk hy) (by decide), ← h.tagged k hk y hy]
    simp [offNext, offPrev, offTag, hne]

end

theorem untagged_detach (ha : a ∈ lists o) (hd : Detached b b' a o) (hu : Untagged b held) :
    Untagged b' (⟨a, o⟩ :: held) := by
  intro c hc k hk
  have h16 : offTag < pageSize := by decide
  rcases List.mem_cons.mp hc with rfl | hc
  · rw [hd.word _ _ (h.dvd_of_listed ho ha) h16, if_pos ⟨rfl, rfl⟩]
    exact (freeTag_ne_zero _ _).symm
  · have hne := h.held_ne_listed hc ho ha
    rw [hd.word _ _ (h.dvd_of_mem (List.mem_append_left _ hc)) h16]
    simpa [hne, offTag, offPrev, offNext] using hu c hc k hk

theorem pop_eq (hl : lists o = a :: l₂) :
    ∃ b', b.pop o = .ok (some a, b') ∧ Detached b b' a o := by
  have hli := hl ▸ h.linked o ho
  obtain ⟨hh, hnil, hp, -⟩ := hli
  have ha : a ∈ lists o := by simp [hl]
  have hn := h.next_cases ho ha
  have hpl : b.plausibleLink (b.word a offNext) o = true := h.plausibleLink ho hn
  let b₁ := { b with freeLists := update b.freeLists o (b.next a) }
  let b₂ := if b.next a = NIL then { b₁ with nonempty := b.nonempty &&& notU 32 (1 <<< o) }
    else b₁.setWord (b.next a) offPrev NIL
  refine ⟨b₂.setWord a offTag 0, ?_, ?_⟩
  · simp only [pop, hh, hnil, hpl]
    rfl
  · have hw : ∀ x j, pageSize ∣ x → j < pageSize → b₂.word x j =
        if x = b.next a ∧ j = offPrev then NIL else b.word x j := by
      intro x j hx hj
      rw [← word_setWord_link (h.link_dvd ho hn) hx (by decide) hj]
      simp only [b₂, ne_eq]
      split <;> rfl
    refine ⟨?_, ?_, ?_, ?_, ?_, fun x j hx hj => ?_⟩
    case refine_6 =>
      have hxN : x ≠ NIL := fun heq => pageSize_not_dvd_NIL (heq ▸ hx)
      rw [word_setWord hx (h.dvd_of_listed ho ha) (by decide) hj, hw x j hx hj]
      simp [hp, hxN]
    all_goals
      simp only [hp, true_and, b₂]
      split <;> rfl

/-- `unlink` takes a block that is on the list it is asked about. -/
theorem unlink_eq (ha : a ∈ lists o) :
    ∃ b', b.unlink a o = .ok (true, b') ∧ Detached b b' a o :=
  unlink_detached (h.dvd_of_listed ho ha) (h.tagged o ho a ha)
    (h.freeNeighbour ho (h.prev_cases ho ha)) (h.freeNeighbour ho (h.next_cases ho ha))

end Detach

/-- Among block heads, those with the tag of an order are those on its list. -/
theorem tag_iff (h : Threaded b held lists) (hu : Untagged b held) (ho : o ≤ maxOrder)
    {c : Block} (hc : c ∈ held ++ freeBlocks lists) :
    b.word c.base offTag = freeTag c.base o ↔ c.base ∈ lists o := by
  refine ⟨fun htag => ?_, h.tagged o ho c.base⟩
  rcases List.mem_append.mp hc with hh | hf
  · exact absurd htag (hu c hh o ho)
  · obtain ⟨hk, hmem⟩ := mem_freeBlocks.mp hf
    rw [h.tagged c.order hk c.base hmem] at htag
    exact freeTag_inj hk ho htag ▸ hmem

end Threaded

/-! ### Tags in the rest of memory -/

/-- Wherever a page carries a free tag, it is on the list of that order. -/
def Honest (b : Buddy) (lists : Nat → List Nat) : Prop :=
  ∀ x o, pageSize ∣ x → o ≤ maxOrder → b.word x offTag = freeTag x o → x ∈ lists o

namespace Honest

/-- So the blocks off the lists are untagged, whichever they are. -/
theorem untagged (hh : Honest b lists) (h : Threaded b held lists) : Untagged b held := by
  intro c hc o ho htag
  have hmem := hh _ o (h.dvd_of_mem (List.mem_append_left _ hc)) ho htag
  exact h.held_ne_listed hc ho hmem rfl

theorem push (h : Honest b lists) (ho : o ≤ maxOrder) (hpa : pageSize ∣ pa)
    (hh : b.freeLists o = NIL ∨ pageSize ∣ b.freeLists o) :
    Honest (b.push pa o) (update lists o (pa :: lists o)) := by
  intro x k hx hk htag
  by_cases hxpa : x = pa
  · have hs : freeTag x o = freeTag x k := by
      rw [← htag, hxpa, word_push hpa hh hpa (by decide)]
      simp [offTag, offPrev]
    rw [freeTag_inj ho hk hs, update_self, hxpa]
    exact List.mem_cons_self
  · rw [word_push_of_ne hpa hh hx (by decide) hxpa fun _ => by decide] at htag
    have hmem := h x k hx hk htag
    by_cases hko : k = o
    · rw [hko, update_self]
      exact List.mem_cons_of_mem _ (hko ▸ hmem)
    · rwa [update_of_ne hko]

theorem detach {b' : Buddy} (h : Honest b lists) (hl : lists o = l₁ ++ a :: l₂)
    (hd : Detached b b' a o) : Honest b' (update lists o (l₁ ++ l₂)) := by
  intro x k hx hk htag
  rw [hd.word x _ hx (by decide)] at htag
  by_cases hxa : x = a
  · rw [if_pos ⟨hxa, rfl⟩] at htag
    exact absurd htag.symm (freeTag_ne_zero _ _)
  · have hmem := h x k hx hk (by simpa [hxa, offTag, offPrev, offNext] using htag)
    by_cases hko : k = o
    · rw [hko]
      rw [hko, hl] at hmem
      simpa [hxa] using hmem
    · rwa [update_of_ne hko]

end Honest

end Buddy

end Qunix.Mm
