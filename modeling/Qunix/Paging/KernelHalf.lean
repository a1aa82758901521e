/-
The kernel half that all address spaces share.

`VmSpace::new` copies the recorded root's entries from 256 on, so the tables
below them are shared by reference. A mapping made below an entry in use is then
visible everywhere. A mapping under an unused entry links a new table into the
root that happens to be active, and into no other: `mapping_stays_private`. If
every mapping in the kernel half is made under an entry in use, or while no
address space but the kernel's exists, all roots translate the kernel half alike:
`kernel_half_shared`.
-/

import Qunix.Lib.Run
import Qunix.Paging.Radix

namespace Qunix.Paging

open Function Qunix.Lib

variable {n : Nat}

/-! ### The machine -/

structure Kernel (n : Nat) where
  tables : Tables
  /-- `KERNEL_ROOT`. -/
  kernelRoot : Nat
  /-- The roots of the `VmSpace`s that exist. -/
  live : List Nat
  /-- The root each CPU has loaded. -/
  cr3 : Fin n → Nat

inductive Act (n : Nat) where
  /-- `VmSpace::new`, with what `frames::alloc` answers. -/
  | new (frame : Option Nat)
  | drop (c : Fin n) (root : Nat)
  | activate (c : Fin n) (root : Nat)
  | map (c : Fin n) (size : PageSize) (va : Addr) (pa : Nat) (flags : BitVec 64)
      (frames : List (Option Nat))
  | unmap (c : Fin n) (va : Addr)
  | mapDevicePage (c : Fin n) (va : Addr) (phys : Nat) (frames : List (Option Nat))
  | mapUser (root : Nat) (va : Addr) (pa : Nat) (writable executable : Bool)
      (frames : List (Option Nat))

namespace Kernel

/-- `record_kernel_root` has run, on every CPU's tables. -/
def boot (n : Nat) (tables : Tables) (kernelRoot : Nat) : Kernel n where
  tables := tables
  kernelRoot := kernelRoot
  live := []
  cr3 := fun _ => kernelRoot

/-- The frame allocator hands out no root that is in use. -/
def fresh (s : Kernel n) (frames : List (Option Nat)) : Bool :=
  frames.all fun answer => answer.all fun pa => pa != s.kernelRoot && !s.live.contains pa

def step (m : Mapper) (s : Kernel n) : Act n → Option (Kernel n)
  | .new none => some s
  | .new (some pa) =>
    if s.fresh [some pa] then
      some { s with tables := VmSpace.new s.tables s.kernelRoot pa, live := pa :: s.live }
    else none
  | .drop c root =>
    if s.live.contains root && s.cr3 c != root then some { s with live := s.live.erase root }
    else none
  | .activate c root =>
    if root == s.kernelRoot || s.live.contains root then
      some { s with cr3 := update s.cr3 c root }
    else none
  | .map c .size4KiB va pa flags frames =>
    if s.fresh frames then
      some { s with tables := (AddressSpace.map m s.tables (s.cr3 c) va pa flags frames).1 }
    else none
  | .map c .size2MiB va pa flags frames =>
    if s.fresh frames then
      some { s with tables := (AddressSpace.map2mib m s.tables (s.cr3 c) va pa flags frames).1 }
    else none
  | .unmap c va => some { s with tables := (AddressSpace.unmap m s.tables (s.cr3 c) va).1 }
  | .mapDevicePage c va phys frames =>
    if s.fresh frames then
      some { s with tables := (Paging.mapDevicePage m s.tables (s.cr3 c) va phys frames).1 }
    else none
  | .mapUser root va pa writable executable frames =>
    if s.fresh frames && s.live.contains root then
      some { s with
        tables := (VmSpace.mapUser m s.tables root va pa writable executable frames).1 }
    else none

def Step (m : Mapper) (s : Kernel n) (a : Act n) (s' : Kernel n) : Prop := s.step m a = some s'

/-- The address is in the user half, its top-level entry in the active root is in
use, or no address space but the kernel's exists yet. -/
def linked (s : Kernel n) (c : Fin n) (va : Addr) : Bool :=
  !sharesTheKernelHalf va || (s.tables.p4 (s.cr3 c) (p4Index va)).isSome ||
    (s.live.isEmpty && s.cr3 c == s.kernelRoot)

/-- Mappings of the kernel half are made below tables that are linked already. -/
def mapsLinked (s : Kernel n) : Act n → Bool
  | .map c _ va _ _ _ => s.linked c va
  | .mapDevicePage c va _ _ => s.linked c va
  | _ => true

end Kernel

/-! ### Links -/

/-- The roots lead to the same tables in the kernel half. -/
def SameLinks (s : Kernel n) : Prop :=
  ∀ r ∈ s.live, ∀ i : Fin 512, 256 ≤ i.val → s.tables.link r i = s.tables.link s.kernelRoot i

namespace SameLinks

variable {m : Mapper} {s s' : Kernel n} {c : Fin n} {va : Addr} {frames : List (Option Nat)}

theorem not_mem_of_fresh (h : s.fresh frames = true) :
    some s.kernelRoot ∉ frames ∧ ∀ r ∈ s.live, some r ∉ frames := by
  simp only [Kernel.fresh, List.all_eq_true, Option.all_eq_true, Bool.and_eq_true, bne_iff_ne,
    Bool.not_eq_true', List.contains_eq_mem, decide_eq_false_iff_not] at h
  exact ⟨fun hmem => (h _ hmem _ rfl).1 rfl, fun r hr hmem => (h _ hmem r rfl).2 hr⟩

variable {t : Tables}

variable (h : SameLinks s)

include h

/-- Tables change, but not where the roots in use lead in the kernel half. -/
theorem of_links
    (hl : s.live ≠ [] → ∀ r, (r = s.kernelRoot ∨ r ∈ s.live) → ∀ i : Fin 512,
      256 ≤ i.val → t.link r i = s.tables.link r i) :
    SameLinks { s with tables := t } := by
  intro r hr i hi
  have hl := hl (List.ne_nil_of_mem hr)
  rw [hl r (.inr hr) i hi, hl s.kernelRoot (.inl rfl) i hi]
  exact h r hr i hi

/-- An operation on a linked address, given what it does to the links of one root. -/
theorem of_linked (hl : s.linked c va = true)
    (hop : ∀ r, (r = s.kernelRoot ∨ r ∈ s.live) → ∀ i : Fin 512,
      (r ≠ s.cr3 c ∨ i ≠ p4Index va ∨ (s.tables.p4 (s.cr3 c) i).isSome = true) →
        t.link r i = s.tables.link r i) :
    SameLinks { s with tables := t } := by
  refine h.of_links fun hli r hr i hi => hop r hr i ?_
  by_cases hva : i = p4Index va
  · refine .inr (.inr ?_)
    subst hva
    simp only [Kernel.linked, sharesTheKernelHalf_iff.mpr hi, Bool.not_true, Bool.false_or,
      Bool.or_eq_true, Bool.and_eq_true, List.isEmpty_iff] at hl
    exact hl.resolve_right fun hn => hli hn.1
  · exact .inr (.inl hva)

/-- A new space has the recorded root's links; nobody else's change. -/
theorem new {pa : Nat} (hf : s.fresh [some pa] = true) :
    SameLinks { s with tables := VmSpace.new s.tables s.kernelRoot pa, live := pa :: s.live } := by
  obtain ⟨hro, hl⟩ := not_mem_of_fresh hf
  have hne : s.kernelRoot ≠ pa := by
    rintro rfl
    exact hro (List.mem_singleton.mpr rfl)
  have hs : ∀ r, r ≠ pa → ∀ i,
      (VmSpace.new s.tables s.kernelRoot pa).link r i = s.tables.link r i := by
    intro r hr i
    simp [VmSpace.new, AddressSpace.copyKernelHalf, Tables.link, hr]
  intro r hr i hi
  rw [hs _ hne i]
  rcases List.mem_cons.mp hr with rfl | hold
  · simp [VmSpace.new, AddressSpace.copyKernelHalf, Tables.link, hi, hne]
  · have hrpa : r ≠ pa := by
      rintro rfl
      exact hl r hold (List.mem_singleton.mpr rfl)
    rw [hs r hrpa i]
    exact h r hold i hi

theorem step (hm : m.Lawful) {a : Act n} (hs : s.step m a = some s')
    (hg : s.mapsLinked a = true) : SameLinks s' := by
  have hmem : ∀ {frames}, s.fresh frames = true → ∀ r, (r = s.kernelRoot ∨ r ∈ s.live) →
      some r ∉ frames := by
    rintro frames hf r (rfl | hr)
    · exact (not_mem_of_fresh hf).1
    · exact (not_mem_of_fresh hf).2 r hr
  cases a with
  | new frame =>
    cases frame with
    | none =>
      cases hs
      exact h
    | some pa =>
      simp only [Kernel.step] at hs
      split at hs
      · rename_i hf
        cases hs
        exact h.new hf
      · cases hs
  | drop c root =>
    simp only [Kernel.step] at hs
    split at hs
    · cases hs
      exact fun r hr => h r (List.mem_of_mem_erase hr)
    · cases hs
  | activate c root =>
    simp only [Kernel.step] at hs
    split at hs
    · cases hs
      exact h
    · cases hs
  | map c size va pa flags frames =>
    cases size with
    | size4KiB | size2MiB =>
      simp only [Kernel.step] at hs
      split at hs
      · rename_i hf
        cases hs
        exact h.of_linked hg fun r hr i hi => hm.link_mapSized (hmem hf r hr) hi
      · cases hs
  | unmap c va =>
    cases hs
    refine h.of_links fun _ r _ i _ => ?_
    rw [Tables.link, hm.p4_unmap, Tables.link]
  | mapDevicePage c va phys frames =>
    simp only [Kernel.step] at hs
    split at hs
    · rename_i hf
      cases hs
      exact h.of_linked hg fun r hr i hi => hm.link_mapDevicePage (hmem hf r hr) hi
    · cases hs
  | mapUser root va pa writable executable frames =>
    simp only [Kernel.step] at hs
    split at hs
    · rename_i hf
      cases hs
      refine h.of_links fun _ r hr i hi => hm.link_mapUser (hmem ?_ r hr) hi
      simp only [Bool.and_eq_true] at hf
      exact hf.1
    · cases hs

end SameLinks

/-- If every mapping in the kernel half is made where the active root's top-level
entry is in use, or before there is any address space but the kernel's, every
root translates the kernel half as the recorded root does. -/
theorem kernel_half_shared {m : Mapper} (hm : m.Lawful) {tables : Tables} {kernelRoot : Nat}
    {as : List (Act n)} {s : Kernel n}
    (hrun : Run (fun s a s' => Kernel.Step m s a s' ∧ s.mapsLinked a = true)
      (Kernel.boot n tables kernelRoot) as s) :
    ∀ r ∈ s.live, ∀ va, sharesTheKernelHalf va = true →
      translate s.tables r va = translate s.tables s.kernelRoot va := by
  have hinv : SameLinks s := hrun.invariant
    (fun s a s' h hst => h.step hm hst.1 hst.2) fun r hr => by cases hr
  intro r hr va hva
  exact translate_congr (hinv r hr _ (sharesTheKernelHalf_iff.mp hva))

/-! ### Device pages -/

/-- A kernel whose half has one table linked, at entry 256. -/
def bootTables : Tables where
  p4 := fun root i => if root = 0x1000 ∧ i = 256 then some ⟨0x5000, 3#64⟩ else none
  p3 := fun _ _ => none
  p2 := fun _ _ => none
  p1 := fun _ _ => none

/-- A device page below an entry in use, mapped while another root is active. -/
theorem kernel_half_shared_device_page :
    ∃ s : Kernel 1, Run (fun s a s' => Kernel.Step radix s a s' ∧ s.mapsLinked a = true)
      (Kernel.boot 1 bootTables 0x1000)
      [.new (some 0x2000), .activate 0 0x2000,
        .mapDevicePage 0 0xffff8000fee00000#64 0xfee00000 [some 0x6000, some 0x7000]] s ∧
      0x2000 ∈ s.live ∧ translate s.tables s.kernelRoot 0xffff8000fee00000#64 = some 0xfee00000 ∧
      translate s.tables 0x2000 0xffff8000fee00000#64 = some 0xfee00000 := by
  refine exists_run_of_exec_guarded (by decide +kernel) fun s hrun hend =>
    and_assoc.mp ⟨hend, ?_⟩
  rw [kernel_half_shared radix_lawful hrun 0x2000 hend.1 _ (by decide), hend.2]

/-- A device page under an unused entry is mapped in the active root only. -/
theorem mapping_stays_private :
    ∃ s : Kernel 1, Run (Kernel.Step radix) (Kernel.boot 1 bootTables 0x1000)
      [.new (some 0x2000), .activate 0 0x2000,
        .mapDevicePage 0 0xffffc00000000000#64 0xfee00000
          [some 0x6000, some 0x7000, some 0x8000]] s ∧
      0x2000 ∈ s.live ∧ sharesTheKernelHalf 0xffffc00000000000#64 = true ∧
      translate s.tables 0x2000 0xffffc00000000000#64 = some 0xfee00000 ∧
      translate s.tables s.kernelRoot 0xffffc00000000000#64 = none := by
  exact exists_run_of_exec (by decide +kernel) fun _ _ hend => hend

end Qunix.Paging
