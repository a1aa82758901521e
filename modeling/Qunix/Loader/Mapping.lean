/-
What the mapping pass does to the pages of a program.

It maps the pages the segments touch, zeroed, and stores the file images into them one after
the other, page by page. `Holds` says which pages are there and what they hold.
-/

import Mathlib.Data.List.Induction
import Qunix.Loader.FromElf
import Qunix.Paging.UserMemory

namespace Qunix.Loader

open Function Qunix.Lib Qunix.Lib.Attempt Qunix.Paging Qunix.Elf

/-! ### Pages of a segment -/

/-- A page and a segment have a byte in common, or the segment is empty and lies
inside the page. -/
def Touches (segment : Segment) (n : Nat) : Prop :=
  n * 0x1000 < segment.vaddr + segment.memSize ∧ segment.vaddr < (n + 1) * 0x1000

instance (segment : Segment) (n : Nat) : Decidable (Touches segment n) :=
  inferInstanceAs (Decidable (_ ∧ _))

def Touched (segments : List Segment) (n : Nat) : Prop := ∃ segment ∈ segments, Touches segment n

instance (segments : List Segment) (n : Nat) : Decidable (Touched segments n) :=
  inferInstanceAs (Decidable (∃ segment ∈ segments, Touches segment n))

section Pages

variable {segment : Segment} {range : AddrRange} {n : Nat}

/-- A segment that passes lies between the bounds of user addresses. -/
structure Placed (segment : Segment) (range : AddrRange) : Prop where
  start_eq : range.start = segment.vaddr / 0x1000 * 0x1000
  stop_eq : range.stop = nextMultiple (segment.vaddr + segment.memSize)
  min_le : VmSpace.userMin ≤ range.start
  le_max : range.stop ≤ VmSpace.userMax

theorem segmentPages_ok (h : segmentPages segment = .ok range) : Placed segment range := by
  simp only [segmentPages] at h
  split_ifs at h with hw hmax hmin
  cases h
  constructor
  case start_eq =>
    dsimp only
    omega
  case stop_eq => rfl
  case min_le => exact Nat.not_lt.mp hmin
  case le_max => exact Nat.not_lt.mp hmax

namespace Placed

variable (h : Placed segment range)

include h

theorem mem_pages :
    n * 0x1000 ∈ range.pages ↔ Touches segment n := by
  have hst := h.start_eq
  have hs := h.stop_eq
  unfold nextMultiple at hs
  simp only [AddrRange.pages, List.mem_map, List.mem_range, Touches]
  constructor
  · omega
  · rintro ⟨hlo, hhi⟩
    exact ⟨n - range.start / 0x1000, by omega, by omega⟩

theorem exists_page {va : Nat} (hva : va ∈ range.pages) :
    ∃ n, va = n * 0x1000 ∧ Touches segment n := by
  have hs := h.start_eq
  obtain ⟨k, hk, rfl⟩ := List.mem_map.mp hva
  refine ⟨segment.vaddr / 0x1000 + k, by omega, ?_⟩
  rw [← h.mem_pages]
  have heq : (segment.vaddr / 0x1000 + k) * 0x1000 = range.start + k * 0x1000 := by omega
  rw [heq]
  exact hva

theorem page_bounds (hn : Touches segment n) :
    VmSpace.userMin ≤ n * 0x1000 ∧ (n + 1) * 0x1000 ≤ VmSpace.userMax := by
  have hst := h.start_eq
  have hs := h.stop_eq
  have hmin := h.min_le
  have hmax := h.le_max
  unfold nextMultiple at hs
  unfold Touches at hn
  omega

end Placed

end Pages

/-! ### Addresses -/

variable {va : Nat}

theorem toNat_addr (h : va < VmSpace.userMax) : (addr va).toNat = va := by
  unfold VmSpace.userMax at h
  rw [addr, BitVec.toNat_ofNat]
  omega

theorem pageOf_addr (h : va < VmSpace.userMax) : pageOf (addr va) = va / 0x1000 := by
  rw [pageOf, toNat_addr h]

/-! ### Pages with contents -/

/-- The mapped pages, and their bytes by address. -/
structure Filled (mapped : Nat → Prop) (content : Nat → UInt8) (image : UserMemory) : Prop where
  mapped : ∀ n, (image n).isSome = true ↔ mapped n
  bytes : ∀ {n page}, image n = some page → ∀ o < 0x1000, page.bytes o = content (n * 0x1000 + o)

namespace Filled

variable {mapped mapped' : Nat → Prop} {content : Nat → UInt8} {image : UserMemory} {n : Nat}
  {page : Page} {w x : Bool}

variable (h : Filled mapped content image)

include h

theorem congr (hm : ∀ n, mapped n ↔ mapped' n) :
    Filled mapped' content image where
  mapped := fun n => (h.mapped n).trans (hm n)
  bytes := h.bytes

/-- A page of zeros, where nothing is to be read but zeros. -/
theorem insert
    (hz : ∀ o < 0x1000, content (n * 0x1000 + o) = 0) :
    Filled (fun k => mapped k ∨ k = n) content (update image n (some ⟨w, x, fun _ => 0⟩)) where
  mapped := by
    intro k
    rcases eq_or_ne k n with rfl | hk
    · simp
    · rw [update_of_ne hk, h.mapped]
      simp [hk]
  bytes := by
    intro k page hp o ho
    rw [update_apply] at hp
    split_ifs at hp with hk
    · subst hk
      cases hp
      exact (hz o ho).symm
    · exact h.bytes hp o ho

variable (hp : image n = some page)

include hp

theorem replace {content' : Nat → UInt8} {page' : Page}
    (hb : ∀ o < 0x1000, page'.bytes o = content' (n * 0x1000 + o))
    (hot : ∀ k ≠ n, ∀ o < 0x1000, content' (k * 0x1000 + o) = content (k * 0x1000 + o)) :
    Filled mapped content' (update image n (some page')) where
  mapped := by
    intro k
    rcases eq_or_ne k n with rfl | hk
    · rw [update_self, ← h.mapped, hp]
      rfl
    · rw [update_of_ne hk, h.mapped]
  bytes := by
    intro k page'' hp'' o ho
    rcases eq_or_ne k n with rfl | hk
    · rw [update_self] at hp''
      obtain rfl := Option.some.inj hp''
      exact hb o ho
    · rw [update_of_ne hk] at hp''
      rw [hot k hk o ho]
      exact h.bytes hp'' o ho

theorem setPermissions :
    Filled mapped content
      (update image n (some { page with writable := w, executable := x })) := by
  have hb := h.bytes hp
  exact h.replace hp hb fun _ _ _ _ => rfl

theorem store {o : Nat} {data : List UInt8} (hlen : o + data.length ≤ 0x1000) :
    Filled mapped (writeBytes content (n * 0x1000 + o) data)
      (update image n (some { page with bytes := writeBytes page.bytes o data })) := by
  apply h.replace hp
  · intro o' ho'
    simp [writeBytes, Nat.add_sub_add_left, h.bytes hp o' ho']
  · intro k hk o' ho'
    apply writeBytes_of_outside
    omega

end Filled

/-- The program sees these pages with these bytes. -/
def Holds (Maps : Tables → Nat → List Nat → View → Prop) (mapped : Nat → Prop)
    (content : Nat → UInt8) (s : Space) : Prop :=
  ∃ image, Space.Shows Maps image s ∧ Filled mapped content image

theorem Holds.congr {Maps : Tables → Nat → List Nat → View → Prop} {mapped mapped' : Nat → Prop}
    {content : Nat → UInt8} {s : Space} (h : Holds Maps mapped content s)
    (hm : ∀ n, mapped n ↔ mapped' n) : Holds Maps mapped' content s := by
  obtain ⟨image, hs, hf⟩ := h
  exact ⟨image, hs, hf.congr hm⟩

/-! ### The mapping pass -/

section Mapping

variable {m : Mapper} {Maps : Tables → Nat → List Nat → View → Prop} {mapped : Nat → Prop}
  {content : Nat → UInt8} {n : Nat} {segment : Segment}

theorem mapPage_ensures (hm : m.Documented Maps) (hmax : n * 0x1000 < VmSpace.userMax)
    (hz : ¬ mapped n → ∀ o < 0x1000, content (n * 0x1000 + o) = 0) :
    Ensures (Holds Maps mapped content) (mapPage m (n * 0x1000)) fun _ =>
      Holds Maps (fun k => mapped k ∨ k = n) content := by
  have hp : pageOf (addr (n * 0x1000)) = n := by
    rw [pageOf_addr hmax, Nat.mul_div_cancel _ (by decide)]
  apply Meets.read
  rintro s ⟨image, hs, hf⟩
  have hma := hs.isMapped hm ((toNat_addr hmax).symm ▸ hmax)
  rw [hp] at hma
  apply Meets.ite
  · intro hso
    rw [hma] at hso
    rintro _ rfl
    refine ⟨image, hs, hf.congr fun k => ⟨Or.inl, ?_⟩⟩
    rintro (hk | rfl)
    · exact hk
    · exact (hf.mapped k).mp hso
  · intro hn
    rw [hma] at hn
    refine Meets.bind ((Space.mapNewPage_shows hm).mapErr.of_state hs) fun pa => ?_
    rintro s' ⟨-, -, hs'⟩
    rw [hp] at hs'
    refine ⟨_, hs', hf.insert (hz ?_)⟩
    rw [← hf.mapped]
    exact hn

/-- Copying goes on from a boundary between pages to the next. -/
theorem copyFrom_ensures (hm : m.Documented Maps)
    (hmax : segment.vaddr + segment.data.length ≤ VmSpace.userMax)
    (hpages : ∀ k < segment.data.length, mapped ((segment.vaddr + k) / 0x1000)) (copied : Nat) :
    Ensures (Holds Maps mapped (writeBytes content segment.vaddr (segment.data.take copied)))
      (copyFrom segment copied)
      fun _ => Holds Maps mapped (writeBytes content segment.vaddr segment.data) := by
  induction hl : segment.data.length - copied using Nat.strong_induction_on generalizing copied with
  | _ left ih =>
    rw [copyFrom]
    split
    case isFalse hd =>
      intro s hs
      rwa [List.take_of_length_le (Nat.not_lt.mp hd)] at hs
    case isTrue hc =>
      have hva : segment.vaddr + copied < VmSpace.userMax := by omega
      apply Meets.read
      rintro s ⟨image, hsh, hf⟩
      split
      · exact Meets.fail fun _ _ => trivial
      · rename_i pa hpa
        obtain ⟨run, hrun⟩ : ∃ run, run = min (0x1000 - (segment.vaddr + copied) % 0x1000)
          (segment.data.length - copied) := ⟨_, rfl⟩
        rw [← hrun]
        refine Meets.bind (Meets.modify ?_)
          fun _ => ih (segment.data.length - (copied + run)) (by omega) (copied + run) rfl
        rintro _ rfl
        obtain ⟨page, hp⟩ : ∃ page, image ((segment.vaddr + copied) / 0x1000) = some page :=
          Option.isSome_iff_exists.mp ((hf.mapped _).mpr (hpages copied hc))
        have hlen : ((segment.data.drop copied).take run).length = run := by
          rw [List.length_take, List.length_drop]
          omega
        have hfit : (segment.vaddr + copied) % 0x1000 + ((segment.data.drop copied).take run).length
            ≤ 0x1000 := by omega
        have hnat := toNat_addr hva
        have hp' : image (pageOf (addr (segment.vaddr + copied))) = some page := by
          rw [pageOf_addr hva]
          exact hp
        have hst := hsh.store hm (hnat.symm ▸ hva) hp' (by rw [hnat]; exact hfit) hpa
        rw [pageOf_addr hva, hnat] at hst
        refine ⟨_, hst, ?_⟩
        have hn : writeBytes content segment.vaddr (segment.data.take (copied + run)) =
            writeBytes (writeBytes content segment.vaddr (segment.data.take copied))
              (segment.vaddr + copied) ((segment.data.drop copied).take run) := by
          rw [List.take_add, writeBytes_append, List.length_take_of_le (Nat.le_of_lt hc)]
        have hf := hf.store hp hfit
        rw [Nat.div_add_mod'] at hf
        rw [hn]
        exact hf

theorem loadSegment_ensures (hm : m.Documented Maps)
    (hsi : segment.data.length ≤ segment.memSize)
    (hz : ∀ n, ¬ mapped n → ∀ o < 0x1000, content (n * 0x1000 + o) = 0) :
    Ensures (Holds Maps mapped content) (loadSegment m segment) fun _ =>
      Holds Maps (fun n => mapped n ∨ Touches segment n)
        (writeBytes content segment.vaddr segment.data) := by
  refine Meets.bind (Q := fun range s => segmentPages segment = .ok range ∧
    Holds Maps mapped content s)
    (Meets.lift (fun s hs range hr => ⟨hr, hs⟩) fun _ _ => trivial) fun range => ?_
  rintro s ⟨hr, hs⟩
  have hp := segmentPages_ok hr
  refine Meets.bind (P := Holds Maps mapped content)
    (Q := fun _ => Holds Maps (fun n => mapped n ∨ Touches segment n) content) ?_ ?_ s hs
  · refine Meets.weaken (Meets.forM (J := fun done =>
      Holds Maps (fun n => mapped n ∨ n * 0x1000 ∈ done) content) ?_) ?_ ?_
    · intro done va rest hpa
      have hmem : va ∈ range.pages := by simp [hpa]
      obtain ⟨n, rfl, ht⟩ := hp.exists_page hmem
      have hb := hp.page_bounds ht
      refine (mapPage_ensures hm (by omega) ?_).weaken (fun _ hs => hs) fun _ s hs => hs.congr ?_
      · intro hnot
        exact hz n fun hn => hnot (.inl hn)
      · intro k
        simp only [List.mem_append, List.mem_singleton, or_assoc]
        have hk : k * 0x1000 = n * 0x1000 ↔ k = n := by omega
        rw [hk]
    · intro s hs
      exact hs.congr fun n => by simp
    · intro _ s hs
      exact hs.congr fun n => by rw [hp.mem_pages]
  · intro _
    have hst := hp.stop_eq
    have hmax := hp.le_max
    unfold nextMultiple at hst
    have hpa : ∀ k < segment.data.length, mapped ((segment.vaddr + k) / 0x1000) ∨
        Touches segment ((segment.vaddr + k) / 0x1000) := by
      intro k hk
      right
      unfold Touches
      omega
    have hc := @copyFrom_ensures m Maps (fun n => mapped n ∨ Touches segment n) content segment hm
      (by omega) hpa 0
    rw [List.take_zero] at hc
    refine hc.weaken (fun s hs => ?_) fun _ _ hs => hs
    have hno : writeBytes content segment.vaddr [] = content := by
      funext a
      exact writeBytes_of_outside (by simp; omega)
    rw [hno]
    exact hs

/-- The file images, stored over zeros in the order of the segments. -/
def contentOf (segments : List Segment) : Nat → UInt8 :=
  written (fun _ => 0) (segments.map fun segment => ⟨segment.vaddr, segment.data⟩)

theorem contentOf_snoc (segments : List Segment) :
    contentOf (segments ++ [segment]) =
      writeBytes (contentOf segments) segment.vaddr segment.data := by
  rw [contentOf, List.map_append, written_append]
  rfl

variable {segments : List Segment}

theorem contentOf_eq_zero {a : Nat}
    (h : ∀ segment ∈ segments, a < segment.vaddr ∨ segment.vaddr + segment.data.length ≤ a) :
    contentOf segments a = 0 := by
  apply written_of_outside
  intro w hw
  obtain ⟨segment, hs, rfl⟩ := List.mem_map.mp hw
  exact h segment hs

theorem contentOf_untouched (hsi : ∀ segment ∈ segments, segment.data.length ≤ segment.memSize)
    (hn : ¬ Touched segments n) {o : Nat} (ho : o < 0x1000) :
    contentOf segments (n * 0x1000 + o) = 0 := by
  apply contentOf_eq_zero
  intro segment hs
  have := hsi segment hs
  have ht : ¬ Touches segment n := fun h => hn ⟨segment, hs, h⟩
  unfold Touches at ht
  omega

theorem loadAll_ensures (hm : m.Documented Maps)
    (hsi : ∀ segment ∈ segments, segment.data.length ≤ segment.memSize) :
    Ensures (Holds Maps (fun _ => False) fun _ => 0) (segments.forM (loadSegment m)) fun _ =>
      Holds Maps (Touched segments) (contentOf segments) := by
  refine Meets.weaken (Meets.forM (J := fun done => Holds Maps (Touched done) (contentOf done)) ?_)
    ?_ fun _ _ hs => hs
  · intro done segment rest hse
    have hd : ∀ segment ∈ done, segment.data.length ≤ segment.memSize := by
      intro segment' hs'
      apply hsi
      rw [hse]
      exact List.mem_append_left _ hs'
    rw [contentOf_snoc]
    refine (loadSegment_ensures hm (hsi segment (by simp [hse])) ?_).weaken
      (fun _ hs => hs) fun _ s hs => hs.congr fun n => ?_
    · intro n hn o ho
      exact contentOf_untouched hd hn ho
    · simp [Touched]
  · intro s hs
    exact hs.congr fun n => by simp [Touched]

end Mapping

end Qunix.Loader
