/-
The image a loaded program finds.

`Built` says what the processor gives a program at each address of the user half: the
bytes of the segments, zeros around them, the pages the segments touch and the four
stack pages, each with the permissions of its segments. The stack pages are writable
though no segment touches them, and an empty segment inside a page has that page
mapped: `hollow_built`.
-/

import Qunix.Loader.Frames

namespace Qunix.Loader

open Function Qunix.Lib Qunix.Lib.Attempt Qunix.Paging Qunix.Elf

/-! ### What is to be found -/

/-- What the processor permits a program at an address. -/
def accessAt (s : Space) (a : Nat) : Option Access := access s.tables s.rootPa (addr a)

/-- The byte a program reads at an address. -/
def byteAt (s : Space) (a : Nat) : Option UInt8 := (accessAt s a).map fun acc => s.mem acc.pa

/-- The address is one of the segment's. -/
def Covers (segment : Segment) (a : Nat) : Prop :=
  segment.vaddr ≤ a ∧ a < segment.vaddr + segment.memSize

instance (segment : Segment) (a : Nat) : Decidable (Covers segment a) :=
  inferInstanceAs (Decidable (_ ∧ _))

/-- No address belongs to both. -/
def Apart (segment segment' : Segment) : Prop := ∀ a, ¬ (Covers segment a ∧ Covers segment' a)

/-- The `PT_LOAD` segments of a file. -/
def loadSegments (bytes : Bytes) : List Segment :=
  (List.range bytes.phnum).filterMap fun k => bytes.segmentOf (bytes.programHeader k)

def IsStackPage (n : Nat) : Prop := ∃ k < userStackPages, n = stackPage k

structure Built (segments : List Segment) (half : Fin 512 → Option Entry) (s : Space) : Prop where
  /-- The file image, and zeros after it. -/
  file : ∀ segment ∈ segments, ∀ a, Covers segment a →
    byteAt s a = some ((segment.data[a - segment.vaddr]?).getD 0)
  rest : ∀ a < VmSpace.userMax, (∀ segment ∈ segments, ¬ Covers segment a) →
    ∀ b, byteAt s a = some b → b = 0
  mapped : ∀ a < VmSpace.userMax, (accessAt s a).isSome = true ↔
    Touched segments (a / 0x1000) ∨ IsStackPage (a / 0x1000)
  user : ∀ a < VmSpace.userMax, ∀ acc, accessAt s a = some acc → acc.user = true
  writable : ∀ a < VmSpace.userMax, ∀ acc, accessAt s a = some acc → (acc.writable = true ↔
    (∃ segment ∈ segments, Touches segment (a / 0x1000) ∧ segment.writable = true) ∨
      IsStackPage (a / 0x1000))
  executable : ∀ a < VmSpace.userMax, ∀ acc, accessAt s a = some acc → (acc.executable = true ↔
    ∃ segment ∈ segments, Touches segment (a / 0x1000) ∧ segment.executable = true)
  notBoth : ∀ a < VmSpace.userMax, ∀ acc, accessAt s a = some acc →
    ¬ (acc.writable = true ∧ acc.executable = true)
  min_le : ∀ a < VmSpace.userMax, (accessAt s a).isSome = true → VmSpace.userMin ≤ a
  /-- Nothing of the program is at `USER_MAX` or above. -/
  kernelHalf : ∀ i : Fin 512, 256 ≤ i.val → s.tables.p4 s.rootPa i = half i

/-! ### Files -/

section Files

variable {bytes : Bytes} {segments : List Segment} {a : Nat}

theorem data_length_le (h : bytes.WellFormed) :
    ∀ segment ∈ loadSegments bytes, segment.data.length ≤ segment.memSize := by
  intro segment hse
  obtain ⟨k, hk, hs⟩ := List.mem_filterMap.mp hse
  unfold Bytes.segmentOf at hs
  split_ifs at hs with ht
  cases hs
  have hl := (h.loadable k (List.mem_range.mp hk) ht).1
  exact (List.length_take_le _ _).trans hl

/-- The segment an address belongs to decides what is stored there. -/
theorem written_of_covers {mem : Nat → UInt8} {segment : Segment}
    (hsi : ∀ segment ∈ segments, segment.data.length ≤ segment.memSize)
    (hap : segments.Pairwise Apart) (hmem : mem a = 0) (hse : segment ∈ segments)
    (ha : Covers segment a) :
    written mem (segments.map fun segment => ⟨segment.vaddr, segment.data⟩) a =
      (segment.data[a - segment.vaddr]?).getD 0 := by
  have ho : ∀ segment' ∈ segments, ¬ Covers segment' a →
      a < segment'.vaddr ∨ segment'.vaddr + segment'.data.length ≤ a := by
    intro segment' hs' hc
    have := hsi segment' hs'
    unfold Covers at hc
    omega
  induction segments generalizing mem with
  | nil => cases hse
  | cons first segments ih =>
    obtain ⟨hf, hr⟩ := List.pairwise_cons.mp hap
    change written (writeBytes mem first.vaddr first.data) _ a = _
    rcases List.mem_cons.mp hse with rfl | hmem'
    · rw [written_of_outside]
      · rw [writeBytes, if_pos ha.1, hmem]
      · intro w hw
        obtain ⟨segment', hs', rfl⟩ := List.mem_map.mp hw
        apply ho segment' (List.mem_cons_of_mem _ hs')
        intro hc
        exact hf segment' hs' a ⟨ha, hc⟩
    · refine ih (fun s hs => hsi s (List.mem_cons_of_mem _ hs)) hr ?_ hmem'
        fun s hs => ho s (List.mem_cons_of_mem _ hs)
      rw [writeBytes_of_outside, hmem]
      apply ho first List.mem_cons_self
      intro hc
      exact hf segment hmem' a ⟨hc, ha⟩

end Files

/-! ### What is found -/

section Load

variable {m : Mapper} {Maps : Tables → Nat → List Nat → View → Prop} {segments : List Segment}
  {s : Space} {image : UserMemory} {a : Nat}

theorem accessAt_cases (hm : m.Documented Maps) (hs : Space.Shows Maps image s)
    (ha : a < VmSpace.userMax) :
    (accessAt s a = none ∧ image (a / 0x1000) = none) ∨
      ∃ acc page, accessAt s a = some acc ∧ image (a / 0x1000) = some page ∧ acc.user = true ∧
        acc.writable = page.writable ∧ acc.executable = page.executable ∧
        s.mem acc.pa = page.bytes (a % 0x1000) := by
  have hva : (addr a).toNat < VmSpace.userMax := (toNat_addr ha).symm ▸ ha
  have hac := hs.access hm hva
  rw [pageOf_addr ha, toNat_addr ha] at hac
  unfold accessAt
  cases hacc : access s.tables s.rootPa (addr a) with
  | none =>
    rw [hacc] at hac
    exact .inl ⟨rfl, Option.map_eq_none_iff.mp hac.symm⟩
  | some acc =>
    rw [hacc] at hac
    obtain ⟨page, hp, heq⟩ := Option.map_eq_some_iff.mp hac.symm
    simp only [Prod.mk.injEq] at heq
    obtain ⟨hu, hw, hx, hb⟩ := heq
    exact .inr ⟨acc, page, rfl, hp, hu.symm, hw.symm, hx.symm, hb.symm⟩

theorem exists_page_of_accessAt (hm : m.Documented Maps) (hs : Space.Shows Maps image s)
    (ha : a < VmSpace.userMax) {acc : Access} (hacc : accessAt s a = some acc) :
    ∃ page, image (a / 0x1000) = some page ∧ acc.user = true ∧ acc.writable = page.writable ∧
      acc.executable = page.executable ∧ s.mem acc.pa = page.bytes (a % 0x1000) := by
  rcases accessAt_cases hm hs ha with ⟨hn, -⟩ | ⟨acc', page, hacc', hp, hf⟩
  · rw [hn] at hacc
    cases hacc
  · obtain rfl := Option.mem_unique hacc hacc'
    exact ⟨page, hp, hf⟩

theorem permissionsOf_eq (segments : List Segment) (n : Nat) :
    ((permissionsOf segments n).1 = true ↔
        ∃ segment ∈ segments, Touches segment n ∧ segment.writable = true) ∧
      ((permissionsOf segments n).2 = true ↔
        ∃ segment ∈ segments, Touches segment n ∧ segment.executable = true) := by
  simp [permissionsOf]

theorem Laid.permissions (h : Laid segments IsStackPage image) {n : Nat} {page : Page}
    (hp : image n = some page) :
    (page.writable = true ↔
        (∃ segment ∈ segments, Touches segment n ∧ segment.writable = true) ∨ IsStackPage n) ∧
      (page.executable = true ↔
        ∃ segment ∈ segments, Touches segment n ∧ segment.executable = true) ∧
      ¬ (page.writable = true ∧ page.executable = true) := by
  have hm := (h.filled.mapped n).mp (by rw [hp]; rfl)
  rcases hm with ht | hs
  · obtain ⟨hpe, hb⟩ := h.guarded n page ht hp
    obtain ⟨hwr, he⟩ := permissionsOf_eq segments n
    rw [← hpe] at hwr he
    have hnot : ¬ IsStackPage n := fun hs => h.apart n hs ht
    rw [or_iff_left hnot]
    exact ⟨hwr, he, hb⟩
  · obtain ⟨hw, hx⟩ := h.stackPages n page hs hp
    refine ⟨iff_of_true hw (.inr hs), iff_of_false (by simp [hx]) ?_, by simp [hx]⟩
    rintro ⟨segment, hse, hto, -⟩
    exact h.apart n hs ⟨segment, hse, hto⟩

theorem built_of_laid (hm : m.Documented Maps) {half : Fin 512 → Option Entry}
    (hsh : Space.Shows Maps image s) (hl : Laid segments IsStackPage image)
    (hpl : ∀ segment ∈ segments, ∃ range, segmentPages segment = .ok range)
    (hsi : ∀ segment ∈ segments, segment.data.length ≤ segment.memSize)
    (hap : segments.Pairwise Apart)
    (hh : ∀ i : Fin 512, 256 ≤ i.val → s.tables.p4 s.rootPa i = half i) :
    Built segments half s := by
  have hby : ∀ a < VmSpace.userMax, ∀ acc, accessAt s a = some acc →
      s.mem acc.pa = contentOf segments a := by
    intro a ha acc hacc
    obtain ⟨page, hp, -, -, -, hbytes⟩ := exists_page_of_accessAt hm hsh ha hacc
    have hco := hl.filled.bytes hp (a % 0x1000) (Nat.mod_lt _ (by decide))
    rw [Nat.div_add_mod'] at hco
    rw [hbytes, hco]
  have hma : ∀ a < VmSpace.userMax, (accessAt s a).isSome = true ↔
      Touched segments (a / 0x1000) ∨ IsStackPage (a / 0x1000) := by
    intro a ha
    rw [← hl.filled.mapped]
    rcases accessAt_cases hm hsh ha with ⟨hn, hi⟩ | ⟨acc, page, hacc, hp, -⟩
    · simp [hn, hi]
    · simp [hacc, hp]
  constructor
  case file =>
    intro segment hs a hc
    have ht : Touched segments (a / 0x1000) := by
      refine ⟨segment, hs, ?_⟩
      unfold Covers at hc
      unfold Touches
      omega
    have ha : a < VmSpace.userMax := by
      have := (touched_bounds hpl ht).2
      omega
    obtain ⟨acc, hacc⟩ := Option.isSome_iff_exists.mp ((hma a ha).mpr (.inl ht))
    rw [byteAt, hacc, Option.map_some, hby a ha acc hacc]
    exact congrArg some (written_of_covers hsi hap rfl hs hc)
  case rest =>
    intro a ha hn b hb
    obtain ⟨acc, hacc, rfl⟩ := Option.map_eq_some_iff.mp hb
    rw [hby a ha acc hacc]
    apply contentOf_eq_zero
    intro segment hs
    have := hsi segment hs
    have hc := hn segment hs
    unfold Covers at hc
    omega
  case mapped => exact hma
  case user =>
    intro a ha acc hacc
    obtain ⟨page, -, hu, -⟩ := exists_page_of_accessAt hm hsh ha hacc
    exact hu
  case writable =>
    intro a ha acc hacc
    obtain ⟨page, hp, -, hw, -⟩ := exists_page_of_accessAt hm hsh ha hacc
    rw [hw]
    exact (hl.permissions hp).1
  case executable =>
    intro a ha acc hacc
    obtain ⟨page, hp, -, -, hx, -⟩ := exists_page_of_accessAt hm hsh ha hacc
    rw [hx]
    exact (hl.permissions hp).2.1
  case notBoth =>
    intro a ha acc hacc
    obtain ⟨page, hp, -, hw, hx, -⟩ := exists_page_of_accessAt hm hsh ha hacc
    rw [hw, hx]
    exact (hl.permissions hp).2.2
  case min_le =>
    intro a ha hso
    rcases (hma a ha).mp hso with ht | ⟨k, hk, hst⟩
    · have := (touched_bounds hpl ht).1
      omega
    · unfold stackPage userStackTop at hst
      unfold userStackPages at hk
      unfold VmSpace.userMin
      omega
  case kernelHalf => exact hh

theorem shows_new {kernelRoot : Nat} {mach : Machine} (hm : m.Documented Maps)
    (hn : (mach.answers.filterMap id).Nodup) (hnew : Space.new kernelRoot mach = some s) :
    Space.Shows Maps (fun _ => none) s :=
  ⟨fun _ => none, {
    toSound := Space.sound_new hm hn hnew
    owned := fun h => nomatch h
    aligned := fun h => nomatch h
    inj := fun h => nomatch h
    pages := fun _ => .unmapped }⟩

/-- A load that succeeds builds the image that the file describes, if its segments are
apart: pages and their permissions are those of the segments that touch them, and the
stack pages can be written and not executed. -/
theorem image_built (hm : m.Documented Maps) {kernelRoot : Nat} {held : Nat → Prop} {mach : Machine}
    (hmach : Supplied kernelRoot held mach) {bytes : Bytes} {p : Process}
    (hload : fromElf m kernelRoot bytes mach = .ok p)
    (hapart : (loadSegments bytes).Pairwise Apart) :
    Built (loadSegments bytes) (mach.tables.p4 kernelRoot) p.space := by
  unfold fromElf at hload
  rcases bytes.parse_spec with ⟨hw, hparse⟩ | ⟨-, e, hparse⟩
  · rw [hparse] at hload
    cases hnew : Space.new kernelRoot mach with
    | none =>
      rw [hnew] at hload
      cases hload
    | some s₀ =>
      rw [hnew] at hload
      dsimp only at hload
      have howns := (load_owns hm bytes.elf).state (hmach.owns_new hm hnew)
      have hensures := load_ensures hm (Bytes.segments_eq hw) (data_length_le hw)
      cases hrun : load m bytes.elf s₀ with
      | mk r s =>
        rw [hrun] at hload howns
        cases r with
        | error e => cases hload
        | ok =>
          cases hload
          obtain ⟨hplaced, image, hshows, hlaid⟩ :=
            hensures.of_ok (shows_new hm hmach.nodup hnew) hrun
          exact built_of_laid hm hshows hlaid hplaced (data_length_le hw) hapart howns.half
  · rw [hparse] at hload
    cases hload

end Load

/-- Four bytes of code and four of zeros, at 0x400000. -/
theorem image_built_minimal : ∃ p, fromElf radix 0x1000 .minimal (supply 12) = .ok p ∧
    Built [⟨0x400000, 8, [0xf4, 0xeb, 0xfd, 0x90], false, true⟩]
      (bootTables.p4 0x1000) p.space := by
  obtain ⟨p, hp⟩ : ∃ p, fromElf radix 0x1000 .minimal (supply 12) = .ok p := by
    have hsome : (fromElf radix 0x1000 .minimal (supply 12)).toOption.isSome = true := by
      decide +kernel
    obtain ⟨p, hp⟩ := Option.isSome_iff_exists.mp hsome
    exact ⟨p, ok_of_toOption hp⟩
  have hsegments : loadSegments .minimal =
      [⟨0x400000, 8, [0xf4, 0xeb, 0xfd, 0x90], false, true⟩] := by decide +kernel
  refine ⟨p, hp, ?_⟩
  refine image_built radix_documented (supplied 12) hp ?_
  exact List.pairwise_singleton _ _

/-- One `PT_LOAD` entry without a byte of file or memory, at 0x400801. -/
def hollow : Bytes where
  data := elfMagic ++ [2, 1, 1] ++ List.replicate 9 0 ++ toLE 2 2 ++ toLE 2 62 ++ toLE 4 1 ++
    toLE 8 0x400000 ++ toLE 8 64 ++ toLE 8 0 ++ toLE 4 0 ++ toLE 2 64 ++ toLE 2 56 ++ toLE 2 1 ++
    List.replicate 6 0 ++
    (toLE 4 1 ++ toLE 4 4 ++ toLE 8 120 ++ toLE 8 0x400801 ++ toLE 8 0 ++ toLE 8 0 ++ toLE 8 0 ++
      toLE 8 4096)
  fits := by decide +kernel

/-- No address belongs to a segment; still a page besides the stack is mapped, and the
stack pages are writable. -/
theorem hollow_built : ∃ p, fromElf radix 0x1000 hollow (supply 12) = .ok p ∧
    (loadSegments hollow).Pairwise Apart ∧
    (∀ segment ∈ loadSegments hollow, ∀ a, ¬ Covers segment a) ∧
    (accessAt p.space 0x400000).isSome = true ∧ ¬ IsStackPage 0x400 ∧
    (accessAt p.space 0x7ffefffff000).any Access.writable = true := by
  have hrun : (fromElf radix 0x1000 hollow (supply 12)).toOption.any (fun p =>
      (accessAt p.space 0x400000).isSome &&
        (accessAt p.space 0x7ffefffff000).any Access.writable) = true := by decide +kernel
  obtain ⟨p, hp, hpages⟩ := (Option.any_eq_true _ _).mp hrun
  rw [Bool.and_eq_true] at hpages
  have hsegments : loadSegments hollow = [⟨0x400801, 0, [], false, false⟩] := by decide +kernel
  refine ⟨p, ok_of_toOption hp, ?_, ?_, hpages.1, ?_, hpages.2⟩
  · exact List.pairwise_singleton _ _
  · rintro segment hsegment a ⟨hlo, hhi⟩
    obtain rfl := List.mem_singleton.mp hsegment
    exact absurd hhi (Nat.not_lt.mpr hlo)
  · rintro ⟨k, hk, heq⟩
    unfold stackPage userStackTop at heq
    unfold userStackPages at hk
    omega

end Qunix.Loader
